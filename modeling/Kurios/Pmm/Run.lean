import Kurios.Pmm.BootMap

/-!
Histories of the buddy allocator.

A history starts from the state `pmm_init` built and is a sequence of calls of
`alloc_pages` and `free_pages` in which every free names a block that is
outstanding: returned by an earlier allocation of the same order and not freed
since. `Tracks` ties a state of a history to an arena whose live blocks are the
outstanding ones; one step preserves it (`Tracks.step`), so every history does.

`buddy_invariant` reads the result off in the allocator's own terms.
-/

namespace Kurios.Pmm

open Base Finset Block Arena

variable {lists : Nat → List Nat} {A : Arena}

/-- A call of one of the two entry points. -/
inductive Call where
  | alloc (order : Nat)
  | free (addr order : Nat)
deriving DecidableEq

/-- The allocator, and the addresses and orders handed out and not yet freed. -/
structure History where
  info : MemInfo
  outstanding : List (Nat × Nat)

local instance lawfulPair : LawfulBEq (Nat × Nat) := inferInstance

/-- One call. A free of a block that is not outstanding is no step. -/
def History.step (s : History) : Call → Option History
  | .alloc order =>
    let result := allocPages s.info order
    if result.1 = 0 then some ⟨result.2, s.outstanding⟩
    else some ⟨result.2, (result.1, order) :: s.outstanding⟩
  | .free addr order =>
    if (addr, order) ∈ s.outstanding then
      some ⟨freePages s.info addr order, s.outstanding.erase (addr, order)⟩
    else none

/-- The blocks that a choice of page lists, one for each order, stands for. -/
def listBlocks (lists : Nat → List Nat) : List Block :=
  (List.range (maxOrder + 1)).flatMap fun k => (lists k).map fun p => ⟨p, k⟩

/-- The outstanding blocks of a history. -/
def History.liveBlocks (s : History) : List Block :=
  s.outstanding.map fun a => ⟨physToPfn a.1, a.2⟩

/-- The invariant of the allocator, on its own data. `lists k` is free list `k` as
its links spell it out, `frames` the frames that are free or allocated. -/
structure BuddyInvariant (s : History) (lists : Nat → List Nat) (frames : Finset Nat) : Prop where
  linked : ∀ k ≤ maxOrder, FreeList s.info k (lists k)
  apart : (listBlocks lists ++ s.liveBlocks).Pairwise fun b c => Disjoint b.frames c.frames
  aligned : ∀ k ≤ maxOrder, ∀ p ∈ lists k, 2 ^ k ∣ p
  first : ∀ k ≤ maxOrder, ∀ p ∈ lists k, p < s.info.totalPages ∧
    (s.info.pages p).flags.buddy = true ∧ (s.info.pages p).order = k
  only : ∀ p < s.info.totalPages, (s.info.pages p).flags.buddy = true → ∃ k ≤ maxOrder, p ∈ lists k
  zonePages : s.info.zone.freePages = ((listBlocks lists).map size).sum
  infoPages : s.info.freePages = ((listBlocks lists).map size).sum
  covered : ∀ f, f ∈ frames ↔ ∃ b ∈ listBlocks lists ++ s.liveBlocks, f ∈ b.frames

/-- The arena `A` represents the state; its live blocks are the outstanding ones. -/
structure Tracks (s : History) (A : Arena) : Prop where
  buddy : Buddy s.info A
  total : 2 ^ maxOrder ∣ s.info.totalPages
  live : ∃ bs : List Block, bs.Nodup ∧ bs.toFinset = A.live ∧
    s.outstanding = bs.map fun b => (pfnToPhys b.base, b.order)

/-- The address and order of a block determine it. -/
theorem callArgs_injective : Function.Injective fun b : Block => (pfnToPhys b.base, b.order) := by
  intro b c h
  simp only [Prod.mk.injEq] at h
  cases b
  cases c
  simp only [Block.mk.injEq]
  exact ⟨pfnToPhys_inj h.1, h.2⟩

/-- One call keeps the arena's frames and the correspondence. -/
theorem Tracks.step {s s' c} (h : Tracks s A) (hstep : s.step c = some s') :
    ∃ A', Tracks s' A' ∧ A'.frames = A.frames := by
  obtain ⟨bs, hnd, hlive, hout⟩ := h.live
  cases c with
  | alloc order =>
    simp only [History.step] at hstep
    rcases allocPages_spec h.buddy order with heq | ⟨pfn, m', A', heq, halloc⟩
    · obtain rfl : s' = s := by simpa [heq] using hstep.symm
      exact ⟨A, h, rfl⟩
    have hmem : (⟨pfn, order⟩ : Block) ∈ A'.live := by
      rw [halloc.live]
      exact mem_insert_self _ _
    have hpos : 0 < pfn := (halloc.buddy.inside pfn (live_frames_subset hmem (base_mem_frames _))).1
    have hne := pfnToPhys_ne_zero hpos
    rw [heq, if_neg hne] at hstep
    cases hstep
    refine ⟨A', ⟨halloc.buddy, halloc.totalPages ▸ h.total, ⟨pfn, order⟩ :: bs, ?_, ?_, ?_⟩,
      halloc.frames⟩
    · refine List.nodup_cons.mpr ⟨fun hin => halloc.fresh ?_, hnd⟩
      rw [← hlive]
      exact List.mem_toFinset.mpr hin
    · rw [List.toFinset_cons, hlive, halloc.live]
    · rw [List.map_cons, hout]
  | free addr order =>
    obtain ⟨hmem, rfl⟩ := ite_eq_some hstep
    rw [hout] at hmem
    obtain ⟨b, hb, ⟨⟩⟩ := List.mem_map.mp hmem
    have hbA : b ∈ A.live := hlive ▸ List.mem_toFinset.mpr hb
    obtain ⟨A', hfreed⟩ := freePages_spec h.buddy h.total hbA
    refine ⟨A', ⟨hfreed.buddy, hfreed.totalPages.symm ▸ h.total, bs.erase b,
      hnd.erase b, ?_, ?_⟩, hfreed.frames⟩
    · ext c
      rw [List.mem_toFinset, hnd.mem_erase_iff, hfreed.live, ← hlive, mem_erase, List.mem_toFinset]
    · rw [List.map_erase callArgs_injective, hout]

theorem mem_listBlocks {b} :
    b ∈ listBlocks lists ↔ b.order ≤ maxOrder ∧ b.base ∈ lists b.order := by
  simp only [listBlocks, List.mem_flatMap, List.mem_range, List.mem_map]
  constructor
  · rintro ⟨k, hk, p, hp, rfl⟩
    exact ⟨Nat.lt_succ_iff.mp hk, hp⟩
  · rintro ⟨hk, hp⟩
    exact ⟨b.order, by omega, b.base, hp, rfl⟩

theorem listBlocks_nodup (h : ∀ k ≤ maxOrder, (lists k).Nodup) : (listBlocks lists).Nodup := by
  rw [listBlocks, List.nodup_flatMap]
  refine ⟨fun k hk => ?_, List.nodup_range.imp fun {j k} hne => ?_⟩
  · have hle : k ≤ maxOrder := by
      rw [List.mem_range] at hk
      omega
    exact (h k hle).map fun p q he => by simpa using he
  intro b hb hb'
  obtain ⟨p, -, rfl⟩ := List.mem_map.mp hb
  obtain ⟨q, -, he⟩ := List.mem_map.mp hb'
  exact hne (congrArg order he).symm

/-- The correspondence with an arena, in the allocator's own terms. -/
theorem Tracks.invariant {s} (h : Tracks s A) : ∃ lists, BuddyInvariant s lists A.frames := by
  have hchoice : ∀ k, ∃ xs, k ≤ maxOrder →
      FreeList s.info k xs ∧ ∀ p, p ∈ xs ↔ (⟨p, k⟩ : Block) ∈ A.free := by
    intro k
    by_cases hk : k ≤ maxOrder
    · obtain ⟨xs, hxs⟩ := h.buddy.lists.list k hk
      exact ⟨xs, fun _ => hxs⟩
    · exact ⟨[], fun hk' => absurd hk' hk⟩
  choose lists hlists using hchoice
  obtain ⟨bs, hnd, hlive, hout⟩ := h.live
  have hfree : ∀ b, b ∈ listBlocks lists ↔ b ∈ A.free := by
    intro b
    rw [mem_listBlocks]
    constructor
    · rintro ⟨hk, hp⟩
      exact ((hlists b.order hk).2 b.base).mp hp
    · intro hb
      have hk := h.buddy.lists.order_le b hb
      exact ⟨hk, ((hlists b.order hk).2 b.base).mpr hb⟩
  have hlists_nodup : (listBlocks lists).Nodup :=
    listBlocks_nodup fun k hk => (hlists k hk).1.links.nodup
  have hblocks : s.liveBlocks = bs := by
    simp [History.liveBlocks, hout, Function.comp_def, physToPfn_pfnToPhys]
  have hlivemem : ∀ b, b ∈ bs ↔ b ∈ A.live := fun b => by rw [← hlive, List.mem_toFinset]
  have hmem : ∀ b, b ∈ listBlocks lists ++ s.liveBlocks ↔ b ∈ A.free ∪ A.live := by
    intro b
    rw [List.mem_append, mem_union, hfree, hblocks, hlivemem]
  have hall : (listBlocks lists ++ s.liveBlocks).Nodup := by
    rw [hblocks]
    refine List.nodup_append.mpr ⟨hlists_nodup, hnd, fun b hb c hc he => ?_⟩
    exact not_live_of_free ((hfree b).mp hb) ((hlivemem b).mp (he ▸ hc))
  have hsum : ((listBlocks lists).map size).sum = A.freePages := by
    rw [← List.sum_toFinset _ hlists_nodup, Arena.freePages]
    exact sum_congr (by ext b; rw [List.mem_toFinset, hfree]) fun _ _ => rfl
  refine ⟨lists, fun k hk => (hlists k hk).1, ?_, fun k hk p hp => ?_, fun k hk p hp => ?_,
    fun p hp hflag => ?_, ?_, ?_, fun f => ?_⟩
  · exact hall.pairwise_of_forall_ne fun b hb c hc hne =>
      A.apart b ((hmem b).mp hb) c ((hmem c).mp hc) hne
  · exact A.aligned _ (mem_union_left _ (((hlists k hk).2 p).mp hp))
  · have hb := ((hlists k hk).2 p).mp hp
    have hin : p ∈ A.frames := mem_frames.mpr ⟨_, mem_union_left _ hb, base_mem_frames ⟨p, k⟩⟩
    exact ⟨(h.buddy.inside p hin).2, h.buddy.lists.flag _ hb⟩
  · obtain ⟨k, hb⟩ := h.buddy.lists.only p hp hflag
    have hk := h.buddy.lists.order_le _ hb
    exact ⟨k, hk, ((hlists k hk).2 p).mpr hb⟩
  · rw [h.buddy.zonePages, hsum]
  · rw [h.buddy.infoPages, hsum]
  · rw [Arena.mem_frames]
    exact exists_congr fun b => and_congr_left fun _ => (hmem b).symm

/-- **The buddy allocator invariant.** From the state `pmm_init` builds for a map
without overlaps and a page array of whole maximal blocks, every history of
allocations and of frees of outstanding blocks keeps the free lists linked,
aligned, marked and counted, keeps free and outstanding blocks apart, and never
changes the set of frames they cover. -/
theorem buddy_invariant {boot : BootInfo} {kernelPhysEnd : BitVec 64} {memory : Nat → Page}
    {m : MemInfo} (hinit : pmmInit boot kernelPhysEnd memory = some m)
    (hmap : NonOverlapping boot.memoryMap) (htotal : 2 ^ maxOrder ∣ m.totalPages) :
    ∃ frames, ∀ calls s, run History.step ⟨m, []⟩ calls = some s →
      ∃ lists, BuddyInvariant s lists frames := by
  obtain ⟨A, hA, hlive⟩ := pmmInit_buddy hinit hmap
  refine ⟨A.frames, fun calls s hrun => ?_⟩
  have hstart : Tracks ⟨m, []⟩ A := ⟨hA, htotal, [], List.nodup_nil, by simp [hlive], rfl⟩
  obtain ⟨A', hA', hframes⟩ := run_inv (fun s => ∃ A', Tracks s A' ∧ A'.frames = A.frames)
    (fun s c s' hs hstep => by
      obtain ⟨A1, hA1, hsame⟩ := hs
      obtain ⟨A2, hA2, hsame'⟩ := hA1.step hstep
      exact ⟨A2, hA2, hsame'.trans hsame⟩)
    ⟨A, hstart, rfl⟩ hrun
  rw [← hframes]
  exact hA'.invariant

/-- Four MiB of memory: 64 KiB usable from 1 MiB on, the rest reserved. -/
def smallBoot : BootInfo where
  memoryMap := [⟨0x100000, 0x10000, 1⟩, ⟨0x110000, 0x2f0000, 2⟩]
  initrdFlag := false
  initrdStart := 0
  initrdSize := 0

/-- A kernel image of one page. -/
def smallKernelEnd : BitVec 64 := 0x201000

theorem smallBoot_inits :
    ∃ m, pmmInit smallBoot smallKernelEnd (fun _ => {}) = some m ∧ 2 ^ maxOrder ∣ m.totalPages := by
  decide +kernel

theorem smallBoot_nonOverlapping : NonOverlapping smallBoot.memoryMap := by
  refine List.pairwise_pair.mpr fun x hx => ?_
  simp only [MemoryMapEntry.Contains, u64]
  simp
  omega

theorem buddy_invariant_smallBoot :
    ∃ m, pmmInit smallBoot smallKernelEnd (fun _ => {}) = some m ∧
      ∃ frames, ∀ calls s, run History.step ⟨m, []⟩ calls = some s →
        ∃ lists, BuddyInvariant s lists frames := by
  obtain ⟨m, hinit, htotal⟩ := smallBoot_inits
  exact ⟨m, hinit, buddy_invariant hinit smallBoot_nonOverlapping htotal⟩

end Kurios.Pmm
