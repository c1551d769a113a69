import Kurios.Pmm.Buddy

/-!
Who holds the allocated frames.

Above the buddy allocator, single frames are used in two ways: with a reference
count (`page_get_phys`, `page_put_phys`), or by one owner that frees them itself
(`free_page`), as page tables are. A `Ledger` is the account of both, beside the
blocks that belong to others; `Accounts m A L` says that the allocator's live
blocks and reference counts are what the ledger says. One lemma for each entry
point says which ledger it leads to. No call changes which frames the machine has
(`SameMachine`).
-/

namespace Kurios.Pmm

open Base Function Finset Block

variable {g : Page → Page} {n : Nat}

/-- `refs f` is the number of references to the counted frame `f`. -/
structure Ledger where
  others : Finset Block
  tables : Finset Nat
  refs : Nat → Nat

namespace Ledger

section

variable (L : Ledger)

def addTable (f : Nat) : Ledger := { L with tables := insert f L.tables }

def dropTable (f : Nat) : Ledger := { L with tables := L.tables.erase f }

def setRefs (f n : Nat) : Ledger := { L with refs := update L.refs f n }

/-- The ledger knows nothing of the frame. -/
def Fresh (f : Nat) : Prop := f ∉ L.tables ∧ L.refs f = 0 ∧ ⟨f, 0⟩ ∉ L.others

/-- A block is live according to the ledger. -/
def Holds (b : Block) : Prop :=
  b ∈ L.others ∨ b.order = 0 ∧ (b.base ∈ L.tables ∨ 0 < L.refs b.base)

end

variable {L : Ledger} {f : Nat} {b : Block}

theorem holds_addTable : (L.addTable f).Holds b ↔ b = ⟨f, 0⟩ ∨ L.Holds b := by
  obtain ⟨q, k⟩ := b
  simp only [Holds, addTable, mem_insert, Block.mk.injEq]
  tauto

theorem holds_dropTable (hrefs : L.refs f = 0) (hother : ⟨f, 0⟩ ∉ L.others) :
    (L.dropTable f).Holds b ↔ b ≠ ⟨f, 0⟩ ∧ L.Holds b := by
  obtain ⟨q, k⟩ := b
  simp only [Holds, dropTable, mem_erase, ne_eq, Block.mk.injEq]
  by_cases hq : q = f ∧ k = 0
  · obtain ⟨rfl, rfl⟩ := hq
    simp [hrefs, hother]
  · tauto

theorem holds_setRefs (hn : 0 < n) : (L.setRefs f n).Holds b ↔ b = ⟨f, 0⟩ ∨ L.Holds b := by
  obtain ⟨q, k⟩ := b
  simp only [Holds, setRefs, Block.mk.injEq]
  by_cases hq : q = f
  · subst hq
    simp only [update_self]
    tauto
  · simp [hq]

theorem holds_setRefs_zero (htable : f ∉ L.tables) (hother : ⟨f, 0⟩ ∉ L.others) :
    (L.setRefs f 0).Holds b ↔ b ≠ ⟨f, 0⟩ ∧ L.Holds b := by
  obtain ⟨q, k⟩ := b
  simp only [Holds, setRefs, ne_eq]
  by_cases hq : q = f
  · subst hq
    by_cases hk : k = 0
    · subst hk
      simp [htable, hother]
    · simp [hk]
  · simp [hq]

end Ledger

/-- Two states of one machine: no call of the allocator changes the frames it
manages or the size of the descriptor array. -/
structure SameMachine (m : MemInfo) (A : Arena) (m' : MemInfo) (A' : Arena) : Prop where
  frames : A'.frames = A.frames
  totalPages : m'.totalPages = m.totalPages

namespace SameMachine

variable {m m' m'' : MemInfo} {A A' A'' : Arena}

theorem refl (m : MemInfo) (A : Arena) : SameMachine m A m A := ⟨rfl, rfl⟩

theorem trans (h : SameMachine m A m' A') (h' : SameMachine m' A' m'' A'') :
    SameMachine m A m'' A'' :=
  ⟨h'.frames.trans h.frames, h'.totalPages.trans h.totalPages⟩

end SameMachine

/-- The state of the allocator is what the ledger says. -/
structure Accounts (m : MemInfo) (A : Arena) (L : Ledger) : Prop where
  buddy : Buddy m A
  live : ∀ b, b ∈ A.live ↔ L.Holds b
  table : ∀ f ∈ L.tables, L.refs f = 0 ∧ ⟨f, 0⟩ ∉ L.others
  counted : ∀ f, 0 < L.refs f → ⟨f, 0⟩ ∉ L.others ∧ (m.pages f).refcount = L.refs f

namespace Accounts

variable {m m' : MemInfo} {A A' : Arena} {L : Ledger} {f : Nat}

/-! ### What is live -/

/-- At the start every live block belongs to others. -/
theorem start (h : Buddy m A) : Accounts m A ⟨A.live, ∅, fun _ => 0⟩ where
  buddy := h
  live b := by simp [Ledger.Holds]
  table f hf := absurd hf (notMem_empty f)
  counted f hf := absurd hf (lt_irrefl 0)

section

variable (h : Accounts m A L)
include h

theorem table_live (hf : f ∈ L.tables) : ⟨f, 0⟩ ∈ A.live := (h.live _).mpr (.inr ⟨rfl, .inl hf⟩)

theorem counted_live (hf : 0 < L.refs f) : ⟨f, 0⟩ ∈ A.live := (h.live _).mpr (.inr ⟨rfl, .inr hf⟩)

theorem counted_not_table (hf : 0 < L.refs f) : f ∉ L.tables := fun ht => hf.ne' (h.table f ht).1

/-- A frame of a live block is a frame of the machine, other than frame 0. -/
theorem frame_range (hf : ⟨f, 0⟩ ∈ A.live) : f ∈ A.frames ∧ 0 < f ∧ f < m.totalPages := by
  have hin : f ∈ A.frames := Arena.live_frames_subset hf (base_mem_frames _)
  exact ⟨hin, h.buddy.inside f hin⟩

theorem counted_lt (hf : 0 < L.refs f) : f < m.totalPages := (h.frame_range (h.counted_live hf)).2.2

/-- A frame that somebody uses is not on a free list. -/
theorem counted_not_free (hf : 0 < L.refs f) : ¬ InFreeBlock m f := by
  rw [h.buddy.lists.inFreeBlock_iff]
  exact Arena.not_free_of_live (h.counted_live hf) (base_mem_frames _)

/-- A counted frame is in no block of others. -/
theorem counted_not_others (hf : 0 < L.refs f) : ∀ b ∈ L.others, f ∉ b.frames := by
  intro b hb hfb
  have heq := A.apart.eq_of_mem_frames (mem_union_right _ ((h.live b).mpr (.inl hb)))
    (mem_union_right _ (h.counted_live hf)) hfb (base_mem_frames ⟨f, 0⟩)
  exact (h.counted f hf).1 (heq ▸ hb)

/-- A frame that nobody uses is on a free list. -/
theorem free_of_unused (hin : f ∈ A.frames) (hrefs : L.refs f = 0) (htable : f ∉ L.tables)
    (hoth : ∀ b ∈ L.others, f ∉ b.frames) : InFreeBlock m f := by
  rw [h.buddy.lists.inFreeBlock_iff, Arena.mem_freeFrames_iff]
  refine ⟨hin, fun b hb hfb => ?_⟩
  rcases (h.live b).mp hb with hb | ⟨horder, hb⟩
  · exact hoth b hb hfb
  obtain ⟨base, order⟩ := b
  obtain rfl : order = 0 := horder
  have hbase : base = f := by
    simp only [mem_frames, size] at hfb
    omega
  subst hbase
  rcases hb with hb | hb
  · exact htable hb
  · exact hb.ne' hrefs

/-! ### Allocation -/

/-- `alloc_page` fails or hands out a frame the ledger knows nothing of, which may
then be used either way. -/
theorem allocPage : allocPage m = (0, m) ∨
      ∃ f m' A', Pmm.allocPage m = (pfnToPhys f, m') ∧ L.Fresh f ∧ f ∈ A.frames ∧ 0 < f ∧
        SameMachine m A m' A' ∧ Accounts m' A' (L.addTable f) ∧ Accounts m' A' (L.setRefs f 1) := by
  rcases allocPages_spec h.buddy 0 with heq | ⟨f, m', A', heq, halloc⟩
  · exact .inl heq
  have hnew : ¬ L.Holds ⟨f, 0⟩ := fun hholds => halloc.fresh ((h.live _).mpr hholds)
  simp only [Ledger.Holds, true_and, not_or, pos_iff_ne_zero, ne_eq, not_not] at hnew
  obtain ⟨hother, htable, hrefs⟩ := hnew
  have hlive : ⟨f, 0⟩ ∈ A'.live := halloc.live ▸ mem_insert_self _ _
  have hin : f ∈ A'.frames := Arena.live_frames_subset hlive (base_mem_frames _)
  have hkeep : ∀ q, 0 < L.refs q → (m'.pages q).refcount = L.refs q := by
    intro q hq
    have hne : q ≠ f := fun he => hq.ne' (he ▸ hrefs)
    rw [halloc.refcount, if_neg, (h.counted q hq).2]
    simpa [mem_frames, size] using fun hle => by omega
  have hlives : ∀ b, b ∈ A'.live ↔ b = ⟨f, 0⟩ ∨ L.Holds b := by
    intro b
    rw [halloc.live, mem_insert, h.live]
  refine .inr ⟨f, m', A', heq, ⟨htable, hrefs, hother⟩, halloc.frames ▸ hin,
    (halloc.buddy.inside f hin).1, ⟨halloc.frames, halloc.totalPages⟩,
    ⟨halloc.buddy, fun b => (hlives b).trans Ledger.holds_addTable.symm, ?_, ?_⟩,
    ⟨halloc.buddy, fun b => (hlives b).trans (Ledger.holds_setRefs one_pos).symm, ?_, ?_⟩⟩ <;>
    intro q hq
  · rcases mem_insert.mp hq with rfl | hq
    · exact ⟨hrefs, hother⟩
    · exact h.table q hq
  · exact ⟨(h.counted q hq).1, hkeep q hq⟩
  · have hne : q ≠ f := fun he => htable (he ▸ hq)
    simpa [Ledger.setRefs, update_of_ne hne] using h.table q hq
  by_cases hqf : q = f
  · subst hqf
    have hone : (m'.pages q).refcount = 1 := by
      rw [halloc.refcount, if_pos (base_mem_frames ⟨q, 0⟩)]
    refine ⟨hother, ?_⟩
    simpa [Ledger.setRefs] using hone
  · simp only [Ledger.setRefs, update_of_ne hqf] at hq ⊢
    exact ⟨(h.counted q hq).1, hkeep q hq⟩

/-- `alloc_pages` by somebody else. -/
theorem allocOther (order : Nat) :
    allocPages m order = (0, m) ∨
      ∃ pfn m' A', allocPages m order = (pfnToPhys pfn, m') ∧ 0 < pfn ∧ SameMachine m A m' A' ∧
        Accounts m' A' { L with others := insert ⟨pfn, order⟩ L.others } := by
  rcases allocPages_spec h.buddy order with heq | ⟨pfn, m', A', heq, halloc⟩
  · exact .inl heq
  have hlive := halloc.live ▸ mem_insert_self _ _
  have hin : pfn ∈ A'.frames := Arena.live_frames_subset hlive (base_mem_frames _)
  have hold : ∀ b, b ∈ A.live → b ≠ ⟨pfn, order⟩ := fun b hb he => halloc.fresh (he ▸ hb)
  refine .inr ⟨pfn, m', A', heq, (halloc.buddy.inside pfn hin).1,
    ⟨halloc.frames, halloc.totalPages⟩, halloc.buddy, fun b => ?_, fun f hf => ?_, fun f hf => ?_⟩
  · rw [halloc.live, mem_insert, h.live]
    simp only [Ledger.Holds, mem_insert]
    tauto
  · refine ⟨(h.table f hf).1, ?_⟩
    rw [mem_insert, not_or]
    exact ⟨hold _ (h.table_live hf), (h.table f hf).2⟩
  have hmem : ⟨f, 0⟩ ∈ A'.live := by
    rw [halloc.live]
    exact mem_insert_of_mem (h.counted_live hf)
  have hout : f ∉ (⟨pfn, order⟩ : Block).frames := by
    intro hfin
    exact hold _ (h.counted_live hf) (A'.apart.eq_of_mem_frames (mem_union_right _ hmem)
      (mem_union_right _ hlive) (base_mem_frames _) hfin)
  rw [halloc.refcount, if_neg hout, mem_insert, not_or]
  exact ⟨⟨hold _ (h.counted_live hf), (h.counted f hf).1⟩, (h.counted f hf).2⟩

/-! ### Freeing -/

omit h in
/-- `free_page` of a live frame. -/
theorem freePage_freed (hbuddy : Buddy m A) (hlive : ∀ b, b ∈ A.live ↔ L.Holds b)
    (htotal : 2 ^ maxOrder ∣ m.totalPages) (hf : ⟨f, 0⟩ ∈ A.live) :
    ∃ A', SameMachine m A (freePage m (pfnToPhys f)) A' ∧ Buddy (freePage m (pfnToPhys f)) A' ∧
      (∀ b, b ∈ A'.live ↔ b ≠ ⟨f, 0⟩ ∧ L.Holds b) ∧
      ∀ q, q ≠ f → ((freePage m (pfnToPhys f)).pages q).refcount = (m.pages q).refcount := by
  obtain ⟨A', hfreed⟩ := freePages_spec hbuddy htotal hf
  refine ⟨A', ⟨hfreed.frames, hfreed.totalPages⟩, hfreed.buddy, fun b => ?_, ?_⟩
  · rw [hfreed.live, mem_erase, hlive]
  · intro q hq
    refine (hfreed.refcount q).trans (if_neg ?_)
    simpa [mem_frames, size] using fun hle => by omega

/-- `free_page` by the owner of a frame that is not counted. -/
theorem freeTable (htotal : 2 ^ maxOrder ∣ m.totalPages) (hf : f ∈ L.tables) :
    ∃ A', SameMachine m A (freePage m (pfnToPhys f)) A' ∧
      Accounts (freePage m (pfnToPhys f)) A' (L.dropTable f) := by
  obtain ⟨hrefs, hother⟩ := h.table f hf
  obtain ⟨A', hsame, hbuddy, hlive, hcnt⟩ := freePage_freed h.buddy h.live htotal (h.table_live hf)
  refine ⟨A', hsame, hbuddy, fun b => ?_, ?_, ?_⟩
  · rw [hlive, Ledger.holds_dropTable hrefs hother]
  · intro q hq
    exact h.table q (mem_of_mem_erase hq)
  intro q hq
  have hne : q ≠ f := fun he => hq.ne' (he ▸ hrefs)
  rw [hcnt q hne]
  exact h.counted q hq

/-- `free_page` of a counted frame whose own count may have been overwritten. -/
theorem freeCounted_of {m1} (hf : 0 < L.refs f) (hbuddy : Buddy m1 A)
    (htotal : 2 ^ maxOrder ∣ m1.totalPages)
    (hsame : ∀ q, q ≠ f → (m1.pages q).refcount = (m.pages q).refcount) :
    ∃ A', SameMachine m1 A (freePage m1 (pfnToPhys f)) A' ∧
      Accounts (freePage m1 (pfnToPhys f)) A' (L.setRefs f 0) := by
  obtain ⟨hother, -⟩ := h.counted f hf
  have htable := h.counted_not_table hf
  obtain ⟨A', hmach, hbuddy', hlive, hcnt⟩ :=
    freePage_freed hbuddy h.live htotal (h.counted_live hf)
  refine ⟨A', hmach, hbuddy', fun b => ?_, ?_, ?_⟩
  · rw [hlive, Ledger.holds_setRefs_zero htable hother]
  · intro q hq
    have hne : q ≠ f := fun he => htable (he ▸ hq)
    simpa [Ledger.setRefs, update_of_ne hne] using h.table q hq
  intro q hq
  have hne : q ≠ f := by
    rintro rfl
    simp [Ledger.setRefs] at hq
  simp only [Ledger.setRefs, update_of_ne hne] at hq ⊢
  rw [hcnt q hne, hsame q hne]
  exact h.counted q hq

/-- `free_pages` by somebody else. -/
theorem freeOther (htotal : 2 ^ maxOrder ∣ m.totalPages) {b} (hb : b ∈ L.others) :
    ∃ A', SameMachine m A (freePages m (pfnToPhys b.base) b.order) A' ∧
      Accounts (freePages m (pfnToPhys b.base) b.order) A'
        { L with others := L.others.erase b } := by
  have hlive : b ∈ A.live := (h.live b).mpr (.inl hb)
  obtain ⟨A', hfreed⟩ := freePages_spec h.buddy htotal hlive
  have hne : ∀ f, ⟨f, 0⟩ ∉ L.others → (⟨f, 0⟩ : Block) ≠ b := fun f hf he => hf (he ▸ hb)
  refine ⟨A', ⟨hfreed.frames, hfreed.totalPages⟩, hfreed.buddy, fun c => ?_, fun f hf => ?_,
    fun f hf => ?_⟩
  · rw [hfreed.live, mem_erase, h.live]
    simp only [Ledger.Holds, mem_erase]
    obtain ⟨q, k⟩ := c
    have htables : k = 0 → q ∈ L.tables → (⟨q, k⟩ : Block) ≠ b := by
      rintro rfl ht
      exact hne q (h.table q ht).2
    have hcounted : k = 0 → 0 < L.refs q → (⟨q, k⟩ : Block) ≠ b := by
      rintro rfl hq
      exact hne q (h.counted q hq).1
    tauto
  · exact ⟨(h.table f hf).1, fun he => (h.table f hf).2 (mem_of_mem_erase he)⟩
  have hout : f ∉ b.frames := by
    intro hfin
    exact hne f (h.counted f hf).1 (A.apart.eq_of_mem_frames
      (mem_union_right _ (h.counted_live hf)) (mem_union_right _ hlive)
      (base_mem_frames _) hfin)
  rw [hfreed.refcount, if_neg hout]
  exact ⟨fun he => (h.counted f hf).1 (mem_of_mem_erase he), (h.counted f hf).2⟩

end

/-! ### References -/

/-- A descriptor update that changes nothing the free lists read. -/
def KeepsLinks (g : Page → Page) : Prop :=
  ∀ p, (g p).next = p.next ∧ (g p).prev = p.prev ∧ (g p).flags = p.flags ∧ (g p).order = p.order

theorem buddy_modifyPage (h : Buddy m A) (hg : KeepsLinks g) : Buddy (m.modifyPage f g) A := by
  have hkeep : ∀ {α : Type} (field : Page → α), (∀ p, field (g p) = field p) →
      ∀ q, field ((m.modifyPage f g).pages q) = field (m.pages q) := by
    intro α field hfield q
    rw [MemInfo.modifyPage_pages]
    split
    · next hq => rw [hfield, hq]
    · rfl
  have hflags : ∀ p, (g p).flags.buddy = p.flags.buddy := fun p => by rw [(hg p).2.2.1]
  have hlists : Lists (m.modifyPage f g) A.free :=
    h.lists.frame rfl rfl rfl (hkeep Page.next fun p => (hg p).1)
      (hkeep Page.prev fun p => (hg p).2.1) (hkeep (·.flags.buddy) hflags)
      (fun b _ => hkeep Page.order (fun p => (hg p).2.2.2) b.base)
  exact ⟨hlists, h.order_le, h.inside, h.zonePages, h.infoPages⟩

section

variable (h : Accounts m A L)
include h

/-- A reference count is written, and stays positive. -/
theorem setRefcount (hf : 0 < L.refs f) (hn : 0 < n) (hg : KeepsLinks g)
    (hcnt : (g (m.pages f)).refcount = n) : Accounts (m.modifyPage f g) A (L.setRefs f n) := by
  refine ⟨buddy_modifyPage h.buddy hg, fun b => ?_, fun q hq => ?_, fun q hq => ?_⟩
  · rw [Ledger.holds_setRefs hn, h.live]
    refine ⟨.inr, ?_⟩
    rintro (rfl | hb)
    · exact .inr ⟨rfl, .inr hf⟩
    · exact hb
  · have hne : q ≠ f := fun he => h.counted_not_table hf (he ▸ hq)
    simpa [Ledger.setRefs, update_of_ne hne] using h.table q hq
  rw [MemInfo.modifyPage_pages]
  by_cases hqf : q = f
  · subst hqf
    exact ⟨(h.counted q hf).1, by simpa [Ledger.setRefs] using hcnt⟩
  · simp only [Ledger.setRefs, update_of_ne hqf] at hq ⊢
    rw [if_neg hqf]
    exact h.counted q hq

theorem physToPage_counted (hf : 0 < L.refs f) : physToPage m (pfnToPhys f) = some f := by
  simp [physToPage, physToPfn_pfnToPhys, h.counted_lt hf]

/-- `page_get_phys` of a counted frame. -/
theorem get (hf : 0 < L.refs f) (hlt : L.refs f < 2 ^ 32 - 1) :
    SameMachine m A (pageGetPhys m (pfnToPhys f)) A ∧
      Accounts (pageGetPhys m (pfnToPhys f)) A (L.setRefs f (L.refs f + 1)) := by
  rw [pageGetPhys, h.physToPage_counted hf]
  refine ⟨⟨rfl, rfl⟩, h.setRefcount hf (Nat.succ_pos _) (fun p => ⟨rfl, rfl, rfl, rfl⟩) ?_⟩
  simp [(h.counted f hf).2, incr32_of_lt hlt]

/-- `page_put_phys` of a counted frame frees it with the last reference. -/
theorem put (htotal : 2 ^ maxOrder ∣ m.totalPages) (hf : 0 < L.refs f) :
    ∃ A', SameMachine m A (pagePutPhys m (pfnToPhys f)).2 A' ∧
      Accounts (pagePutPhys m (pfnToPhys f)).2 A' (L.setRefs f (L.refs f - 1)) := by
  have hcnt := (h.counted f hf).2
  have hne : (m.pages f).refcount ≠ 0 := by omega
  have hlinks : KeepsLinks fun p => { p with refcount := p.refcount - 1 } :=
    fun p => ⟨rfl, rfl, rfl, rfl⟩
  simp only [pagePutPhys, h.physToPage_counted hf, pagePut, if_neg hne]
  by_cases hlast : (m.pages f).refcount - 1 = 0
  · rw [if_pos hlast]
    have hzero : L.refs f - 1 = 0 := hcnt ▸ hlast
    have hbuddy := buddy_modifyPage (f := f) h.buddy hlinks
    obtain ⟨A', hmach, haccounts⟩ :=
      h.freeCounted_of hf hbuddy htotal fun q hq => by rw [MemInfo.modifyPage_pages, if_neg hq]
    rw [hzero]
    exact ⟨A', ⟨hmach.frames, hmach.totalPages⟩, haccounts⟩
  · rw [if_neg hlast]
    exact ⟨A, ⟨rfl, rfl⟩, h.setRefcount hf (by omega) hlinks (by simp [hcnt])⟩

end

end Accounts

/-! ### A small machine -/

/-- A machine with nothing on its free lists yet, and its final counters. -/
def noBlocks (freePages totalPages : Nat) : MemInfo where
  totalPages := totalPages
  freePages := freePages
  reservedPages := 0
  kernelPages := 0
  pageArrayPages := 0
  pages := fun _ => {}
  zone := ⟨fun _ => none, fun _ => 0, 0, totalPages, freePages⟩

/-- A machine whose only memory is one free block. -/
def oneBlock (base order totalPages : Nat) : MemInfo :=
  freeListAdd (noBlocks (2 ^ order) totalPages) base order

def oneBlockArena (base order : Nat) (haligned : 2 ^ order ∣ base) : Arena :=
  .ofFree {⟨base, order⟩} (by simpa [Block.Aligned, size] using haligned) (by simp [Apart])

theorem oneBlock_buddy {base order totalPages} (halign : 2 ^ order ∣ base)
    (horder : order ≤ maxOrder) (hpos : 0 < base) (hlt : base + 2 ^ order ≤ totalPages) :
    Buddy (oneBlock base order totalPages) (oneBlockArena base order halign) where
  lists := by
    have hemp : Lists (noBlocks (2 ^ order) totalPages) ∅ :=
      ⟨fun k _ => ⟨[], ⟨.nil, rfl, rfl⟩, by simp⟩, by simp, by simp, by simp [noBlocks]⟩
    exact hemp.add horder (by simp)
  order_le := by simp [oneBlockArena, Arena.ofFree]
  inside f hf := by
    simp only [oneBlockArena, Arena.ofFree, Arena.frames, union_empty,
      singleton_biUnion, mem_frames, size] at hf
    simp only [oneBlock, freeListAdd_zone, noBlocks]
    omega
  zonePages := by simp [oneBlock, noBlocks, oneBlockArena, Arena.ofFree, Arena.freePages, size]
  infoPages := by simp [oneBlock, noBlocks, oneBlockArena, Arena.ofFree, Arena.freePages, size]

end Kurios.Pmm
