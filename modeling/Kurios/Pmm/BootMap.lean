import Kurios.Pmm.Classify

/-!
`pmm_init` against the memory map it was given.

An entry of the map is a set of 64-bit addresses (`MemoryMapEntry.Contains`); like
every sum of a base and a length in the code it wraps around. The frames the
second and third pass take from a usable entry lie wholly inside it
(`usableRegion_contains`), with one proviso: the page array must have been sized,
which it is not when an entry ends in the last page of the address space.

* `pmmInit_buddy`: a map without overlaps yields a buddy allocator with no live
  blocks.
* `pmmInit_classified_iff`: for an arbitrary map, the free lists hold what they
  should exactly when the usable entries share no candidate frame and no
  candidate frame meets an entry or a range that is not usable. The code compares
  no two entries with each other.
-/

namespace Kurios.Pmm

open Base List Finset

variable {e : MemoryMapEntry} {r : Nat × Nat} {m : MemInfo} {S : Finset Block} {boot : BootInfo}
  {f : Nat}

/-! ### Entries as sets of addresses -/

/-- The address `x` belongs to the entry. -/
def MemoryMapEntry.Contains (e : MemoryMapEntry) (x : Nat) : Prop :=
  u64 (x + 2 ^ 64 - e.base.toNat) < e.length.toNat

/-- No address belongs to two entries. -/
def NonOverlapping (map : List MemoryMapEntry) : Prop :=
  map.Pairwise fun e e' => ∀ x < 2 ^ 64, ¬ (e.Contains x ∧ e'.Contains x)

/-- `x` is an address of frame `f`. -/
def InFrame (f x : Nat) : Prop := f * pageSize ≤ x ∧ x < (f + 1) * pageSize

/-- The frames of a usable entry, in terms of its words. -/
theorem usableRegion_some (h : usableRegion e = some r) :
    e.type = mmapTypeUsable ∧ r.1 = max (u64 (e.base.toNat + 4095) / 4096) 256 ∧
      r.2 = e.wrapEnd / 4096 ∧ r.1 < r.2 := by
  have hbase : (if alignUp e.base.toNat pageSize < lowMemoryEnd then lowMemoryEnd
      else alignUp e.base.toNat pageSize) = max (u64 (e.base.toNat + 4095) / 4096) 256 * 4096 := by
    rw [alignUp_pageSize, lowMemoryEnd]
    split <;> omega
  simp only [usableRegion, hbase, alignDown_pageSize, physToPfn_eq] at h
  split at h
  · cases h
  next htype =>
  split at h
  · cases h
  · next hlt =>
    cases h
    exact ⟨by simpa using htype, by omega, by omega, by omega⟩

/-- The frames taken from a usable entry lie inside it, unless the entry ends in
the last page of the address space. -/
theorem usableRegion_contains {x} (h : usableRegion e = some r)
    (hend : e.wrapEnd ≤ 2 ^ 64 - 4096) (hf : InRange r f) (hx : InFrame f x) : e.Contains x := by
  obtain ⟨-, hlo, hhi, -⟩ := usableRegion_some h
  simp only [InRange, InFrame, MemoryMapEntry.Contains, MemoryMapEntry.wrapEnd, u64, pageSize] at *
  omega

/-- The first pass: the running maximum bounds every end seen so far. -/
theorem maxPhysAddr_spec (map : List MemoryMapEntry) :
    maxPhysAddr map < 2 ^ 64 ∧ ∀ e ∈ map, e.wrapEnd ≤ maxPhysAddr map := by
  have hfold : ∀ (l : List MemoryMapEntry) (acc : Nat), acc < 2 ^ 64 →
      let top := l.foldl (fun acc e => if e.wrapEnd > acc then e.wrapEnd else acc) acc
      acc ≤ top ∧ top < 2 ^ 64 ∧ ∀ e ∈ l, e.wrapEnd ≤ top := by
    intro l
    induction l with
    | nil => simp
    | cons c l ih =>
      intro acc hacc
      have hc : c.wrapEnd < 2 ^ 64 := u64_lt _
      obtain ⟨hle, htop, hall⟩ :=
        ih (if c.wrapEnd > acc then c.wrapEnd else acc) (by split <;> assumption)
      have hstep : acc ≤ (if c.wrapEnd > acc then c.wrapEnd else acc) ∧
          c.wrapEnd ≤ (if c.wrapEnd > acc then c.wrapEnd else acc) := by
        split <;> omega
      exact ⟨hstep.1.trans hle, htop, forall_mem_cons.mpr ⟨hstep.2.trans hle, hall⟩⟩
  exact (hfold map 0 (by decide)).2

/-- A page array that holds the frames of some region was sized without a wrap. -/
theorem wrapEnd_le_of_region (hlt : r.1 < r.2) (hr : r.2 ≤ bootTotalPages boot)
    (he : e ∈ boot.memoryMap) : e.wrapEnd ≤ 2 ^ 64 - 4096 := by
  obtain ⟨htop, hall⟩ := maxPhysAddr_spec boot.memoryMap
  have hmax := hall e he
  rw [bootTotalPages, alignUp_pageSize, physToPfn_eq, u64] at hr
  omega

theorem regions_pos {map : List MemoryMapEntry} (hr : r ∈ map.filterMap usableRegion) :
    0 < r.1 := by
  obtain ⟨e, -, he⟩ := mem_filterMap.mp hr
  have := (usableRegion_some he).2.1
  omega

/-- Entries that share no address give regions that share no frame. -/
theorem regions_disjoint (hmap : NonOverlapping boot.memoryMap)
    (hin : ∀ r ∈ boot.memoryMap.filterMap usableRegion, r.1 < r.2 → r.2 ≤ bootTotalPages boot) :
    (boot.memoryMap.filterMap usableRegion).Pairwise fun r r' =>
      ∀ f, InRange r f → ¬ InRange r' f := by
  rw [pairwise_filterMap]
  refine hmap.imp_of_mem fun {e e'} he he' hdisj r hr r' hr' f hf hf' => ?_
  have hlt := (usableRegion_some hr).2.2.2
  have htop : r.2 ≤ bootTotalPages boot := hin r (mem_filterMap.mpr ⟨e, he, hr⟩) hlt
  have hend := wrapEnd_le_of_region hlt htop he
  have hend' := wrapEnd_le_of_region hlt htop he'
  -- The first address of the shared frame belongs to both entries.
  have hfirst : InFrame f (f * pageSize) := ⟨le_rfl, by simp only [pageSize]; omega⟩
  refine hdisj (f * pageSize) ?_
    ⟨usableRegion_contains hr hend hf hfirst, usableRegion_contains hr' hend' hf' hfirst⟩
  obtain ⟨-, hhi⟩ := hf
  have hr2 := (usableRegion_some hr).2.2.1
  simp only [pageSize]
  omega

/-- A map without overlaps boots into a buddy allocator with no live blocks. -/
theorem pmmInit_buddy {kernelPhysEnd : BitVec 64} {memory : Nat → Page}
    (hinit : pmmInit boot kernelPhysEnd memory = some m) (hmap : NonOverlapping boot.memoryMap) :
    ∃ A, Buddy m A ∧ A.live = ∅ := by
  obtain ⟨m₁, hmark, hin, rfl⟩ := pmmInit_marking hinit
  rw [addUsable_eq]
  have hmark' := hmark.totalPages ▸ hmark
  obtain ⟨A, hA, hlive, -⟩ :=
    pushBlocks_buddy ((regions_disjoint hmap hin).imp fun h f hf hf' => absurd hf' (h f hf)) hmark'
      (fun r => regions_pos) (hmark.totalPages.symm ▸ hin)
  exact ⟨A, hA.countReserved, hlive⟩

/-! ### Arbitrary maps -/

def KernelByte (kernelPhysEnd : BitVec 64) (x : Nat) : Prop :=
  kernelPhysStart ≤ x ∧ x < kernelPhysEnd.toNat

section

variable (boot : BootInfo)

def PageArrayByte (kernelPhysEnd : BitVec 64) (x : Nat) : Prop :=
  u64 (x + 2 ^ 64 - pageArrayPhys kernelPhysEnd) < bootTotalPages boot * pageDescSize

def InitrdByte (x : Nat) : Prop :=
  boot.initrdFlag = true ∧ u64 (x + 2 ^ 64 - boot.initrdStart.toNat) < boot.initrdSize.toNat

/-- No byte of the frame is in use: none is in an entry that is not usable, in the
kernel image, in the page array or in the initrd. -/
def Unused (kernelPhysEnd : BitVec 64) (f : Nat) : Prop :=
  ∀ x, InFrame f x →
    (∀ e ∈ boot.memoryMap, e.type ≠ mmapTypeUsable → ¬ e.Contains x) ∧
      ¬ KernelByte kernelPhysEnd x ∧ ¬ PageArrayByte boot kernelPhysEnd x ∧ ¬ InitrdByte boot x

/-- What the free lists should be after boot. -/
structure Classified (kernelPhysEnd : BitVec 64) (m : MemInfo) : Prop where
  once : ∀ f k b k' b', FreeBlock m k b → FreeBlock m k' b' → f ∈ b.frames → f ∈ b'.frames →
    k = k' ∧ b = b'
  usable : ∀ f, InFreeBlock m f →
    ∃ e ∈ boot.memoryMap, e.type = mmapTypeUsable ∧ ∀ x, InFrame f x → e.Contains x
  low : ∀ f, InFreeBlock m f → lowMemoryEnd ≤ f * pageSize
  unused : ∀ f, InFreeBlock m f → Unused boot kernelPhysEnd f
  count : m.zone.freePages = {f | InFreeBlock m f}.ncard

/-- The maps `pmm_init` classifies: two usable entries share no candidate frame, and
no candidate frame is in use. -/
structure SoundMap (kernelPhysEnd : BitVec 64) : Prop where
  separate : (boot.memoryMap.filterMap usableRegion).Pairwise fun r r' =>
    ∀ f, InRange r f → InRange r' f → ¬ Candidate boot kernelPhysEnd f
  unused : ∀ f, Candidate boot kernelPhysEnd f → Unused boot kernelPhysEnd f

end

/-- Whatever was pushed, every page a list reaches is the first page of a pushed
block, with that block's order. -/
structure Pushed (m : MemInfo) (S : Finset Block) : Prop where
  head : ∀ k p, m.zone.freeLists k = some p → ∃ b ∈ S, b.base = p
  next : ∀ b ∈ S, ∀ q, (m.pages b.base).next = some q → ∃ c ∈ S, c.base = q
  order : ∀ b ∈ S, (⟨b.base, (m.pages b.base).order⟩ : Block) ∈ S

theorem Pushed.push (h : Pushed m S) (b : Block) :
    Pushed (addFreeBlock m b.base b.order) (insert b S) where
  head k p hp := by
    by_cases hk : k = b.order
    · exact ⟨b, mem_insert_self _ _, by simpa [addFreeBlock, hk] using hp⟩
    · obtain ⟨c, hc, rfl⟩ := h.head k p (by simpa [addFreeBlock, hk] using hp)
      exact ⟨c, mem_insert_of_mem hc, rfl⟩
  next c hc q hq := by
    by_cases hcb : c.base = b.base
    · obtain ⟨d, hd, rfl⟩ := h.head b.order q (by simpa [addFreeBlock, hcb] using hq)
      exact ⟨d, mem_insert_of_mem hd, rfl⟩
    · have hcS := (mem_insert.mp hc).resolve_left fun he => hcb (congrArg Block.base he)
      obtain ⟨d, hd, rfl⟩ := h.next c hcS q (by simpa [addFreeBlock, hcb] using hq)
      exact ⟨d, mem_insert_of_mem hd, rfl⟩
  order c hc := by
    by_cases hcb : c.base = b.base
    · simp [addFreeBlock, hcb]
    · have hcS := (mem_insert.mp hc).resolve_left fun he => hcb (congrArg Block.base he)
      simpa [addFreeBlock, hcb] using mem_insert_of_mem (h.order c hcS)

theorem Pushed.pushBlocks (h : Pushed m S) (bs : List Block) :
    Pushed (pushBlocks bs m) (bs.toFinset ∪ S) := by
  induction bs generalizing m S with
  | nil =>
    rw [toFinset_nil, empty_union]
    exact h
  | cons b bs ih =>
    have hrest := ih (h.push b)
    rwa [union_insert, ← insert_union, ← toFinset_cons] at hrest

theorem Pushed.mem_of_freeBlock {k} {b} (h : Pushed m S) (hb : FreeBlock m k b) : b ∈ S := by
  obtain ⟨-, hon, horder⟩ := hb
  have hbase : ∀ p, OnList m k p → ∃ c ∈ S, c.base = p := by
    intro p hp
    induction hp with
    | head hp => exact h.head k _ hp
    | next _ hq ih =>
      obtain ⟨c, hc, rfl⟩ := ih
      exact h.next c hc _ hq
  obtain ⟨c, hc, hcb⟩ := hbase b.base hon
  have hb' := h.order c hc
  rwa [hcb, ← horder] at hb'

section Classify

variable {boot : BootInfo} {kernelPhysEnd : BitVec 64} {m₁ : MemInfo}

/-- The state after the flag passes, with the regions inside the page array. -/
structure Ready (boot : BootInfo) (kernelPhysEnd : BitVec 64) (m₁ : MemInfo) : Prop where
  marking : Marking (bootTotalPages boot) (fun q => ¬ Candidate boot kernelPhysEnd q) m₁
  inside : ∀ r ∈ boot.memoryMap.filterMap usableRegion, r.1 < r.2 → r.2 ≤ bootTotalPages boot

section

variable (h : Ready boot kernelPhysEnd m₁)
include h

section

variable (hr : r ∈ boot.memoryMap.filterMap usableRegion) (hf : InRange r f)
include hr hf

theorem Ready.reserved_iff :
    (m₁.pages f).flags.reserved = true ↔ ¬ Candidate boot kernelPhysEnd f := by
  obtain ⟨hlo, hhi⟩ := hf
  exact h.marking.reserved f (hhi.trans_le (h.inside r hr (by omega)))

theorem Ready.unreserved (hcand : Candidate boot kernelPhysEnd f) :
    (m₁.pages f).flags.reserved = false := by
  rw [Bool.eq_false_iff, ne_eq, h.reserved_iff hr hf, not_not]
  exact hcand

end

/-- The pushed blocks cover exactly the candidates. -/
theorem Ready.candidate_iff (f : Nat) :
    (∃ b ∈ bootBlocks m₁ (boot.memoryMap.filterMap usableRegion), f ∈ b.frames) ↔
      Candidate boot kernelPhysEnd f := by
  rw [mem_bootBlocks_frames]
  constructor
  · rintro ⟨⟨r, hr, hf⟩, hfree⟩
    by_contra hcand
    rw [(h.reserved_iff hr hf).mpr hcand] at hfree
    cases hfree
  · intro hcand
    obtain ⟨r, hr, hf⟩ := hcand.1
    exact ⟨⟨r, hr, hf⟩, h.unreserved hr hf hcand⟩

/-- A candidate frame lies wholly inside a usable entry and above low memory. -/
theorem Ready.candidate_usable (hf : Candidate boot kernelPhysEnd f) :
    (∃ e ∈ boot.memoryMap, e.type = mmapTypeUsable ∧ ∀ x, InFrame f x → e.Contains x) ∧
      lowMemoryEnd ≤ f * pageSize := by
  obtain ⟨r, hr, hin⟩ := hf.1
  obtain ⟨e, he, hreg⟩ := mem_filterMap.mp hr
  obtain ⟨htype, hlo, -, hlt⟩ := usableRegion_some hreg
  have hend := wrapEnd_le_of_region hlt (h.inside r hr hlt) he
  refine ⟨⟨e, he, htype, fun x => usableRegion_contains hreg hend hin⟩, ?_⟩
  have := hin.1
  simp only [lowMemoryEnd, pageSize]
  omega

/-- The counter counts every pushed block, so it is right only if no two of them
share a frame and all of them stay on their lists. -/
theorem soundMap_of_classified (hm : m = countReserved (addUsable boot.memoryMap m₁))
    (hclass : Classified boot kernelPhysEnd m) : SoundMap boot kernelPhysEnd := by
  rw [addUsable_eq] at hm
  generalize hbs : bootBlocks m₁ (boot.memoryMap.filterMap usableRegion) = bs at hm
  have hcand := hbs ▸ h.candidate_iff
  set union : Finset Nat := (bs.map Block.frames).foldr (· ∪ ·) ∅ with hunion
  have hmem : ∀ f, f ∈ union ↔ Candidate boot kernelPhysEnd f := by
    intro f
    rw [← hcand, hunion, mem_foldr_union]
    simp
  -- Every frame on a list is a candidate.
  have hpushed : Pushed m bs.toFinset := by
    have hemp : Pushed m₁ ∅ := ⟨fun k p hp => by simp [h.marking.freeLists] at hp, by simp, by simp⟩
    have := hemp.pushBlocks bs
    rw [union_empty] at this
    rw [hm]
    exact ⟨this.head, this.next, this.order⟩
  have hsub : {f | InFreeBlock m f} ⊆ (union : Set Nat) := by
    rintro f ⟨k, b, hb, hf⟩
    have hbs := mem_toFinset.mp (hpushed.mem_of_freeBlock hb)
    exact (hmem f).mpr ((hcand f).mp ⟨b, hbs, hf⟩)
  have hle : {f | InFreeBlock m f}.ncard ≤ union.card := by
    rw [← Set.ncard_coe_finset]
    exact Set.ncard_le_ncard hsub (finite_toSet _)
  have hzone : m.zone.freePages = (bs.map Block.size).sum := by
    have := (pushBlocks_counters bs m₁).2.2
    rw [h.marking.zonePages, Nat.zero_add] at this
    rw [hm, ← this]
    rfl
  have hsum : ((bs.map Block.frames).map Finset.card).sum = (bs.map Block.size).sum := by
    simp [Function.comp_def]
  have hcnt : {f | InFreeBlock m f}.ncard = ((bs.map Block.frames).map Finset.card).sum := by
    rw [hsum, ← hzone, hclass.count]
  rw [hcnt] at hle
  refine ⟨?_, fun f hf => hclass.unused f ?_⟩
  · have hdisj := (pairwise_disjoint_iff_card_union _).mpr hle
    rw [pairwise_map, ← hbs, bootBlocks, pairwise_flatMap] at hdisj
    refine hdisj.2.imp_of_mem fun {r r'} hr hr' hsep f hf hf' hcandf => ?_
    have hfree := h.unreserved hr hf hcandf
    obtain ⟨b, hb, hfb⟩ := (regionBlocks_spec m₁ le_rfl).2.2 f hf.1 hf.2 hfree
    obtain ⟨c, hc, hfc⟩ := (regionBlocks_spec m₁ le_rfl).2.2 f hf'.1 hf'.2 hfree
    exact disjoint_left.mp (hsep b hb c hc) hfb hfc
  have hge : (union : Set Nat).ncard ≤ {f | InFreeBlock m f}.ncard := by
    rw [Set.ncard_coe_finset, hcnt]
    exact card_foldr_union_le _
  have hall := Set.eq_of_subset_of_ncard_le hsub hge (finite_toSet _)
  have hin : f ∈ (union : Set Nat) := (hmem f).mpr hf
  rwa [← hall] at hin

/-- With no shared candidates the third pass builds an arena of the candidates. -/
theorem classified_of_soundMap (hm : m = countReserved (addUsable boot.memoryMap m₁))
    (hsound : SoundMap boot kernelPhysEnd) : Classified boot kernelPhysEnd m := by
  have hmark := h.marking.totalPages ▸ h.marking
  obtain ⟨A, hA, hlive, hfree⟩ :=
    pushBlocks_buddy (hsound.separate.imp_of_mem fun hr _ hsep f hf hf' =>
        (h.reserved_iff hr hf).mpr (hsep f hf hf'))
      hmark (fun r => regions_pos) (h.marking.totalPages.symm ▸ h.inside)
  rw [addUsable_eq] at hm
  have hB : Buddy m A := hm ▸ hA.countReserved
  have hblock : ∀ k b, FreeBlock m k b ↔ b ∈ A.free ∧ b.order = k := fun k b =>
    hB.lists.freeBlock_iff
  have hfrs : ∀ f, InFreeBlock m f ↔ f ∈ A.freeFrames := fun f => hB.lists.inFreeBlock_iff
  have hcand : ∀ f, InFreeBlock m f ↔ Candidate boot kernelPhysEnd f := by
    intro f
    rw [hfrs, Arena.mem_freeFrames, ← h.candidate_iff, hfree]
    simp
  refine ⟨fun f k b k' b' hb hb' hf hf' => ?_, fun f hf => ?_, fun f hf => ?_, fun f hf => ?_, ?_⟩
  · obtain ⟨hfree1, rfl⟩ := (hblock k b).mp hb
    obtain ⟨hfree2, rfl⟩ := (hblock k' b').mp hb'
    obtain rfl := A.apart.eq_of_mem_frames (mem_union_left _ hfree1)
      (mem_union_left _ hfree2) hf hf'
    exact ⟨rfl, rfl⟩
  · exact (h.candidate_usable ((hcand f).mp hf)).1
  · exact (h.candidate_usable ((hcand f).mp hf)).2
  · exact hsound.unused f ((hcand f).mp hf)
  · have hset : {f | InFreeBlock m f} = (A.freeFrames : Set Nat) := Set.ext hfrs
    rw [hset, Set.ncard_coe_finset, hB.zonePages, Arena.freePages_eq_card]

end

end Classify

/-- **Boot classification.** For every map, kernel end and initrd for which
`pmm_init` stays inside its page array, the free lists are as they should be
exactly when the map is sound. -/
theorem pmmInit_classified_iff {boot : BootInfo} {kernelPhysEnd : BitVec 64} {memory : Nat → Page}
    {m : MemInfo} (hinit : pmmInit boot kernelPhysEnd memory = some m) :
    Classified boot kernelPhysEnd m ↔ SoundMap boot kernelPhysEnd := by
  obtain ⟨m₁, hmark, hin, hm⟩ := pmmInit_marking hinit
  exact ⟨soundMap_of_classified ⟨hmark, hin⟩ hm, classified_of_soundMap ⟨hmark, hin⟩ hm⟩

/-- One usable page that the firmware lists twice. -/
def doubledBoot : BootInfo where
  memoryMap := [⟨0x100000, 0x1000, 1⟩, ⟨0x100000, 0x1000, 1⟩, ⟨0x110000, 0x2f0000, 2⟩]
  initrdFlag := false
  initrdStart := 0
  initrdSize := 0

/-- The page is pushed twice: it counts as two free pages and becomes its own
successor on the list. -/
theorem doubledBoot_not_classified :
    ∃ m, pmmInit doubledBoot 0x201000 (fun _ => {}) = some m ∧
      ¬ Classified doubledBoot 0x201000 m := by
  obtain ⟨m, hm⟩ : ∃ m, pmmInit doubledBoot 0x201000 (fun _ => {}) = some m :=
    Option.isSome_iff_exists.mp (by decide +kernel)
  refine ⟨m, hm, fun hclass => ?_⟩
  obtain ⟨m₁, hmark, hin, heq⟩ := pmmInit_marking hm
  have hsep := (soundMap_of_classified ⟨hmark, hin⟩ heq hclass).separate
  have hpair := pairwise_pair.mp hsep
  exact hpair 256 (by decide) (by decide) (by unfold Candidate; decide +kernel)

theorem pmmInit_classified_iff_doubledBoot :
    ∃ m, pmmInit doubledBoot 0x201000 (fun _ => {}) = some m ∧
      (Classified doubledBoot 0x201000 m ↔ SoundMap doubledBoot 0x201000) := by
  obtain ⟨m, hm⟩ : ∃ m, pmmInit doubledBoot 0x201000 (fun _ => {}) = some m :=
    Option.isSome_iff_exists.mp (by decide +kernel)
  exact ⟨m, hm, pmmInit_classified_iff hm⟩

end Kurios.Pmm
