import Kurios.Areas.Run

/-!
Where a mapping goes: `vma_find_free` (`kernel/mm/vma.c`) and `sys_mmap`
(`kernel/syscall/syscall.c`) of a process whose address space has a VMA list.

`sys_mmap` makes an area and no pages. What it asks the rest of the kernel for comes
with the call: the soft limit `RLIMIT_AS`, the node that the descriptor stands for, and
what `kmem_cache_alloc` returns. The references to the node are not counted here.
-/

namespace Kurios.Areas

open Base Pmm Option List

variable {addr start : Nat} {s' s : VmaState}

/-! ### Areas by address -/

/-- The nodes of the list, in the order of the links. -/
def VmaState.nodes (s : VmaState) : Option (List Nat) := collect s.next walkLimit s.list.head

/-- The area that `vma_find` finds. -/
def VmaState.areaAt (s : VmaState) (addr : Nat) : Option Area := (vmaFind s addr).join.map s.area

namespace VmaInv

variable {s : VmaState} {xs : List Nat}

section

variable (h : VmaInv s xs)
include h

theorem nodes_eq : s.nodes = some xs := by
  rw [VmaState.nodes, h.head]
  exact h.links.links.collect_eq h.length_le

theorem areaAt_eq_some_iff {a} :
    s.areaAt addr = some a ↔ ∃ p ∈ xs, s.area p = a ∧ a.start ≤ addr ∧ addr < a.stop := by
  rw [VmaState.areaAt, h.vmaFind_eq, join_some, map_eq_some_iff]
  constructor
  · rintro ⟨p, hfind, rfl⟩
    obtain ⟨hp, hcont⟩ := h.find_contains_iff.mp hfind
    exact ⟨p, hp, rfl, hcont⟩
  · rintro ⟨p, hp, rfl, hcont⟩
    exact ⟨p, h.find_contains_iff.mpr ⟨hp, hcont⟩, rfl⟩

theorem areaAt_eq_none_iff :
    s.areaAt addr = none ↔ ∀ p ∈ xs, ¬ ((s.area p).start ≤ addr ∧ addr < (s.area p).stop) := by
  rw [eq_none_iff_forall_ne_some]
  constructor
  · intro hnone p hp hcont
    exact hnone _ (h.areaAt_eq_some_iff.mpr ⟨p, hp, rfl, hcont⟩)
  · intro hnone a ha
    obtain ⟨p, hp, rfl, hcont⟩ := h.areaAt_eq_some_iff.mp ha
    exact hnone p hp hcont

/-- Lists with the same areas cover the same addresses. -/
theorem areaAt_congr {ys} (h' : VmaInv s' ys)
    (hsame : ∀ a : Area, a.start ≤ addr → addr < a.stop →
      ((∃ p ∈ xs, s.area p = a) ↔ ∃ p ∈ ys, s'.area p = a)) : s'.areaAt addr = s.areaAt addr := by
  apply Option.ext
  intro a
  rw [h'.areaAt_eq_some_iff, h.areaAt_eq_some_iff]
  constructor <;> rintro ⟨p, hp, harea, hlo, hhi⟩
  · obtain ⟨q, hq, hqa⟩ := (hsame a hlo hhi).mpr ⟨p, hp, harea⟩
    exact ⟨q, hq, hqa, hlo, hhi⟩
  · obtain ⟨q, hq, hqa⟩ := (hsame a hlo hhi).mp ⟨p, hp, harea⟩
    exact ⟨q, hq, hqa, hlo, hhi⟩

/-- `vma_destroy` uncovers the addresses of the area. -/
theorem areaAt_destroy {vma} (hvma : vma ∈ xs) (addr : Nat) :
    (vmaDestroy s vma).areaAt addr =
      if (s.area vma).start ≤ addr ∧ addr < (s.area vma).stop then none else s.areaAt addr := by
  have hinv := h.destroy hvma
  have harea : ∀ p, (vmaDestroy s vma).area p = s.area p := by
    intro p
    rw [vmaDestroy_eq (h.links.prev_ne_self hvma)]
    simp
  split
  case isTrue hcont =>
    rw [hinv.areaAt_eq_none_iff]
    intro p hp hpc
    rw [harea] at hpc
    have hpx : p ∈ xs := mem_of_mem_erase hp
    obtain rfl : p = vma := h.eq_of_contains hpx hvma hpc hcont
    exact (h.links.nodup.not_mem_erase) hp
  case isFalse hcont =>
  apply areaAt_congr h hinv
  intro a hlo hhi
  constructor <;> rintro ⟨p, hp, rfl⟩
  · have hne : p ≠ vma := fun heq => hcont (heq ▸ ⟨hlo, hhi⟩)
    exact ⟨p, (mem_erase_of_ne hne).mpr hp, harea p⟩
  · exact ⟨p, mem_of_mem_erase hp, (harea p).symm⟩

/-- The invariant is about links and bounds. -/
theorem of_fields (hlist : s'.list = s.list) (hstart : ∀ p, (s'.area p).start = (s.area p).start)
    (hstop : ∀ p, (s'.area p).stop = (s.area p).stop) (hnext : ∀ p, s'.next p = s.next p)
    (hprev : ∀ p, s'.prev p = s.prev p) : VmaInv s' xs where
  links := h.links.frame (fun p _ => hnext p) fun p _ => hprev p
  head := hlist ▸ h.head
  tail := hlist ▸ h.tail
  count := hlist ▸ h.count
  valid p hp := by
    have hval := h.valid p hp
    constructor
    · rw [hstart]
      exact hval.start_aligned
    · rw [hstop]
      exact hval.stop_aligned
    · rw [hstart, hstop]
      exact hval.nonempty
  sorted := by
    refine h.sorted.imp fun {p q} hle => ?_
    rw [hstart, hstop]
    exact hle
  heap := h.heap

/-- The file of a node is set, as `sys_mmap` does. -/
theorem setFile (vma : Nat) (file : Option Nat) (offset : Nat) :
    VmaInv (s.modifyVma vma fun v => { v with file := file, fileOffset := offset }) xs := by
  refine h.of_fields (by rfl) ?_ ?_ ?_ ?_
  all_goals
    intro p
    simp only [VmaState.area, VmaState.next, VmaState.prev, VmaState.modifyVma_vmas]
    split
    case isTrue heq =>
      subst heq
      rfl
    · rfl

end

end VmaInv

/-! ### `vma_find_free` -/

/-- The user space that is searched. -/
def spaceStart : Nat := 0x400000
def spaceEnd : Nat := 0x7FFFFFFFFFFF

/-- The search for a gap. -/
def searchGap (s : VmaState) (size : Nat) : (searchStart : Nat) → List Nat → Option Nat
  | searchStart, [] => if u64 (searchStart + size) ≤ spaceEnd then some searchStart else none
  | searchStart, vma :: rest =>
    if u64 (searchStart + size) ≤ (s.vmas vma).start then some searchStart
    else
      searchGap s size (if searchStart < (s.vmas vma).stop then (s.vmas vma).stop else searchStart)
        rest

/-- `vma_find_free`. The inner `none` is the result 0. -/
def vmaFindFree (s : VmaState) (size hint : Nat) : Option (Option Nat) := do
  let size := alignUp size pageSize
  let hint := alignUp hint pageSize
  let nodes ← s.nodes
  let free := !(← vmaOverlaps s hint (u64 (hint + size)))
  if hint ≠ 0 ∧ spaceStart ≤ hint ∧ u64 (hint + size) ≤ spaceEnd ∧ free then return some hint
  else return searchGap s size spaceStart nodes

/-! ### `sys_mmap` -/

/-- The arguments of the call, and what the rest of the kernel answers. -/
structure MmapCall where
  addr : BitVec 64
  length : BitVec 64
  prot : BitVec 64
  flags : BitVec 64
  fd : BitVec 64
  offset : BitVec 64
  limit : BitVec 64
  file : Except Int Nat
  alloc : Option Nat

namespace MmapCall

variable (c : MmapCall)

/-- `MAP_FIXED` and `MAP_ANONYMOUS`. -/
def fixed : Bool := c.flags &&& 0x10 != 0
def anonymous : Bool := c.flags &&& 0x20 != 0

/-- `length`, rounded up to pages. -/
def size : Nat := alignUp c.length.toNat pageSize

/-- The file behind the mapping, `none` for `NULL`. -/
def backing : Except Int (Option Nat) :=
  if !c.anonymous && c.fd != -1 then c.file.map some else .ok none

def vmaFlags (file : Option Nat) : Nat :=
  (if file.isSome then 0 else 0x10) ||| (if c.prot &&& 1 != 0 then 1 else 0) |||
    (if c.prot &&& 2 != 0 then 2 else 0) ||| (if c.prot &&& 4 != 0 then 4 else 0) |||
    (if c.flags &&& 1 != 0 then 8 else 0) ||| (if c.fixed then 0x80 else 0)

/-- `pte_prot` has 32 bits, so that `PTE_NX` is lost. -/
def pteProt : Nat := 0x5 ||| (if c.prot &&& 2 != 0 then 2 else 0)

/-- The address of the mapping; the inner `none` is `-ENOMEM`. -/
def mapAddr (s : VmaState) : Option (Option Nat) := do
  let hint := alignDown c.addr.toNat pageSize
  if c.addr = 0 then vmaFindFree s c.size 0
  else if c.fixed then return some hint
  else if ← vmaOverlaps s hint (u64 (hint + c.size)) then vmaFindFree s c.size hint
  else return some hint

end MmapCall

/-- `current_size`. -/
def currentSize (s : VmaState) (nodes : List Nat) : Nat :=
  nodes.foldl (fun sum p => u64 (sum + ((s.vmas p).stop - (s.vmas p).start))) 0

/-- `sys_mmap`: the address or an error. -/
def sysMmap (h : VmaHistory) (c : MmapCall) : Option (Except Int Nat × VmaHistory) := do
  if c.length = 0 then return (.error (-22), h)
  let nodes ← h.state.nodes
  if c.limit ≠ -1 ∧ c.limit.toNat < u64 (currentSize h.state nodes + c.length.toNat) then
    return (.error (-12), h)
  match c.backing with
  | .error e => return (.error e, h)
  | .ok file =>
    match ← c.mapAddr h.state with
    | none => return (.error (-12), h)
    | some addr =>
      match ← vmaCreate h.state addr (u64 (addr + c.size)) (c.vmaFlags file) c.pteProt c.alloc with
      | (none, s) => return (.error (-12), ⟨s, h.live⟩)
      | (some vma, s) =>
        let s := match file with
          | some node =>
            s.modifyVma vma fun v => { v with file := some node, fileOffset := c.offset.toNat }
          | none => s
        return (.ok addr, ⟨s, vma :: h.live⟩)

/-! ### What the calls do -/

/-- The area that a mapping at `addr` gets. -/
def MmapCall.area (c : MmapCall) (addr : Nat) (file : Option Nat) : Area where
  start := alignDown addr pageSize
  stop := alignUp (u64 (addr + c.size)) pageSize
  flags := c.vmaFlags file
  prot := c.pteProt
  file := file
  fileOffset := if file.isSome then c.offset.toNat else 0

section Calls

variable {h : VmaHistory} {xs : List Nat} {c : MmapCall}

theorem VmaInv.vmaFindFree_eq (h : VmaInv s xs) (size hint : Nat) :
    ∃ r, vmaFindFree s size hint = some r := by
  unfold vmaFindFree
  simp only [h.nodes_eq, h.vmaOverlaps_eq, Option.pure_def, bind_eq_bind, bind_some]
  split <;> exact ⟨_, rfl⟩

theorem VmaInv.mapAddr_eq (h : VmaInv s xs) (c : MmapCall) : ∃ r, c.mapAddr s = some r := by
  unfold MmapCall.mapAddr
  simp only [h.vmaOverlaps_eq, Option.pure_def, bind_eq_bind, bind_some]
  split
  · exact h.vmaFindFree_eq _ _
  split
  · exact ⟨_, rfl⟩
  split
  · exact h.vmaFindFree_eq _ _
  · exact ⟨_, rfl⟩

/-- `sys_mmap` fails without a change, or adds an area that meets none of the others. -/
theorem VmaHistory.Inv.sysMmap (hinv : h.Inv xs) (hfresh : h.Fresh c.alloc) :
    (∃ e, sysMmap h c = some (.error e, h)) ∨
      ∃ addr file vma h' l r, sysMmap h c = some (.ok addr, h') ∧
        c.backing = .ok file ∧ c.mapAddr h.state = some (some addr) ∧ xs = l ++ r ∧
        h'.Inv (l ++ vma :: r) ∧ h'.state.area vma = c.area addr file ∧
        ∀ q ∈ xs, h'.state.area q = h.state.area q := by
  have halloc : ∀ p, c.alloc = some p → p ∉ xs ∧ Heap.kheapStart ≤ p ∧ p < Heap.kheapEnd := by
    intro p hp
    obtain ⟨hlive, hheap⟩ := hfresh p hp
    exact ⟨fun hin => hlive (hinv.perm.mem_iff.mp hin), hheap⟩
  unfold Areas.sysMmap
  simp only [hinv.list.nodes_eq, Option.pure_def, bind_eq_bind, bind_some]
  split
  · exact .inl ⟨_, rfl⟩
  split
  · exact .inl ⟨_, rfl⟩
  cases hbacking : c.backing with
  | error e => exact .inl ⟨e, rfl⟩
  | ok file =>
  obtain ⟨r, hmap⟩ := hinv.list.mapAddr_eq c
  cases r with
  | none =>
    left
    simp only [hmap, bind_some]
    exact ⟨_, rfl⟩
  | some addr =>
  simp only [hmap, bind_some]
  rcases hinv.list.create addr (u64 (addr + c.size)) (c.vmaFlags file) c.pteProt halloc with
    heq | ⟨vma, s', l, r, heq, halloc', hxs, hlist, harea, hsame⟩
  · left
    rw [heq]
    exact ⟨_, rfl⟩
  right
  rw [heq]
  have hnew : ∀ q ∈ xs, q ≠ vma := fun q hq heq => (halloc vma halloc').1 (heq ▸ hq)
  have hperm : (l ++ vma :: r).Perm (vma :: h.live) :=
    perm_middle.trans ((hxs ▸ hinv.perm).cons vma)
  cases file with
  | none => exact ⟨addr, none, vma, _, l, r, rfl, rfl, rfl, hxs, ⟨hlist, hperm⟩, harea, hsame⟩
  | some node =>
    refine ⟨addr, some node, vma, _, l, r, rfl, rfl, rfl, hxs,
      ⟨hlist.setFile vma (some node) c.offset.toNat, hperm⟩, ?_, fun q hq => ?_⟩
    · show Vma.area _ = _
      rw [VmaState.modifyVma_vmas, if_pos rfl]
      show Area.mk (s'.area vma).start (s'.area vma).stop (s'.area vma).flags
        (s'.area vma).prot (some node) c.offset.toNat = _
      rw [harea]
      rfl
    · rw [← hsame q hq]
      show Vma.area _ = Vma.area _
      rw [VmaState.modifyVma_vmas, if_neg (hnew q hq)]

/-! ### Mappings in the user half -/

/-- The end of the user half. -/
def userEnd : Nat := 0x0000800000000000

variable {size : Nat}

/-- The search returns a page boundary, and a range that ends in the user half unless it
wraps around. -/
theorem searchGap_spec (hval : ∀ q ∈ xs, (s.area q).Valid)
    (hhalf : ∀ q ∈ xs, (s.area q).stop ≤ userEnd) (halign : pageSize ∣ start)
    (hstart : start ≤ userEnd) (h : searchGap s size start xs = some addr) :
    pageSize ∣ addr ∧ addr < 2 ^ 64 ∧ u64 (addr + size) ≤ userEnd := by
  induction xs generalizing start with
  | nil =>
    obtain ⟨hend, rfl⟩ := ite_eq_some h
    exact ⟨halign, hstart.trans_lt (by decide), hend.trans (by decide)⟩
  | cons vma rest ih =>
    have hvma := hval vma mem_cons_self
    have hstop := hhalf vma mem_cons_self
    unfold searchGap at h
    split at h
    case isTrue hfits =>
      cases h
      exact ⟨halign, hstart.trans_lt (by decide), hfits.trans (hvma.nonempty.le.trans hstop)⟩
    refine ih (fun q hq => hval q (mem_cons_of_mem _ hq))
      (fun q hq => hhalf q (mem_cons_of_mem _ hq)) ?_ ?_ h
    · split
      · exact hvma.stop_aligned
      · exact halign
    · split
      · exact hstop
      · exact hstart

theorem pageSize_dvd_alignUp (x : Nat) : pageSize ∣ alignUp x pageSize := by
  rw [alignUp_pageSize]
  exact dvd_mul_left _ _

theorem pageSize_dvd_alignDown (x : Nat) : pageSize ∣ alignDown x pageSize := by
  rw [alignDown_pageSize]
  exact dvd_mul_left _ _

theorem alignUp_lt (x : Nat) : alignUp x pageSize < 2 ^ 64 := by
  rw [alignUp_pageSize]
  exact (Nat.div_mul_le_self _ _).trans_lt (u64_lt _)

theorem alignUp_of_dvd {x : Nat} (hlt : x < 2 ^ 64) (hdvd : pageSize ∣ x) :
    alignUp x pageSize = x := by
  rw [alignUp_pageSize]
  unfold u64 pageSize at *
  omega

theorem MmapCall.alignUp_size (c : MmapCall) : alignUp c.size pageSize = c.size :=
  alignUp_of_dvd (alignUp_lt _) (pageSize_dvd_alignUp _)

theorem VmaInv.vmaFindFree_spec {hint} (h : VmaInv s xs)
    (hhalf : ∀ q ∈ xs, (s.area q).stop ≤ userEnd)
    (hfree : vmaFindFree s c.size hint = some (some addr)) :
    pageSize ∣ addr ∧ addr < 2 ^ 64 ∧ u64 (addr + c.size) ≤ userEnd := by
  unfold vmaFindFree at hfree
  simp only [h.nodes_eq, h.vmaOverlaps_eq, c.alignUp_size, Option.pure_def, bind_eq_bind, bind_some]
    at hfree
  split at hfree
  case isTrue hhint =>
    cases hfree
    obtain ⟨-, -, hend, -⟩ := hhint
    exact ⟨pageSize_dvd_alignUp hint, alignUp_lt hint, hend.trans (by decide)⟩
  · exact searchGap_spec h.valid hhalf (by decide) (by decide) (some.inj hfree)

/-- A call for an address of the kernel's choice, or for a range of the user half. -/
def MmapCall.InUserHalf (c : MmapCall) : Prop :=
  c.addr ≠ 0 → alignDown c.addr.toNat pageSize + c.size ≤ userEnd
deriving Decidable

theorem VmaInv.mapAddr_spec (h : VmaInv s xs) (hhalf : ∀ q ∈ xs, (s.area q).stop ≤ userEnd)
    (hc : c.InUserHalf) (hmap : c.mapAddr s = some (some addr)) :
    pageSize ∣ addr ∧ addr < 2 ^ 64 ∧ u64 (addr + c.size) ≤ userEnd := by
  have hasked : c.addr ≠ 0 → alignDown c.addr.toNat pageSize = addr →
      pageSize ∣ addr ∧ addr < 2 ^ 64 ∧ u64 (addr + c.size) ≤ userEnd := by
    intro haddr heq
    have hend := heq ▸ hc haddr
    have hlt : userEnd < 2 ^ 64 := by decide
    refine ⟨heq ▸ pageSize_dvd_alignDown _, by omega, ?_⟩
    rwa [u64_of_lt (hend.trans_lt hlt)]
  unfold MmapCall.mapAddr at hmap
  simp only [h.vmaOverlaps_eq, Option.pure_def, bind_eq_bind, bind_some] at hmap
  split at hmap
  · exact h.vmaFindFree_spec hhalf hmap
  case isFalse haddr =>
  split at hmap
  · exact hasked haddr (some.inj (some.inj hmap))
  split at hmap
  · exact h.vmaFindFree_spec hhalf hmap
  · exact hasked haddr (some.inj (some.inj hmap))

theorem searchGap_start (h : searchGap s size start xs = some addr) :
    addr = start ∨ ∃ q ∈ xs, addr = (s.area q).stop := by
  induction xs generalizing start with
  | nil => exact .inl (ite_eq_some h).2.symm
  | cons vma rest ih =>
    unfold searchGap at h
    split at h
    · exact .inl (some.inj h).symm
    rcases ih h with heq | ⟨q, hq, heq⟩
    · split at heq
      · exact .inr ⟨vma, mem_cons_self, heq⟩
      · exact .inl heq
    · exact .inr ⟨q, mem_cons_of_mem _ hq, heq⟩

/-- A mapping goes to the address that is asked for; or, if there is none or an area is in the
way, to the start of the space or behind an area. -/
theorem VmaInv.mapAddr_cases (h : VmaInv s xs) (hc : c.InUserHalf)
    (hmap : c.mapAddr s = some (some addr)) :
    (c.addr ≠ 0 ∧ addr = alignDown c.addr.toNat pageSize) ∨
      ((c.addr = 0 ∨ ∃ q ∈ xs, alignDown c.addr.toNat pageSize < (s.area q).stop ∧
        (s.area q).start < alignDown c.addr.toNat pageSize + c.size) ∧
      (addr = spaceStart ∨ ∃ q ∈ xs, addr = (s.area q).stop)) := by
  unfold MmapCall.mapAddr at hmap
  simp only [h.vmaOverlaps_eq, Option.pure_def, bind_eq_bind, bind_some] at hmap
  split at hmap
  case isTrue hzero =>
    unfold vmaFindFree at hmap
    simp only [h.nodes_eq, h.vmaOverlaps_eq, Option.pure_def, bind_eq_bind, bind_some] at hmap
    rw [if_neg fun hand => hand.1 (by decide)] at hmap
    exact .inr ⟨.inl hzero, searchGap_start (some.inj hmap)⟩
  case isFalse haddr =>
  split at hmap
  · exact .inl ⟨haddr, (some.inj (some.inj hmap)).symm⟩
  split at hmap
  case isFalse => exact .inl ⟨haddr, (some.inj (some.inj hmap)).symm⟩
  case isTrue hover =>
  have hend := hc haddr
  have hlt : userEnd < 2 ^ 64 := by decide
  have hhint : alignUp (alignDown c.addr.toNat pageSize) pageSize =
      alignDown c.addr.toNat pageSize := alignUp_of_dvd (by omega) (pageSize_dvd_alignDown _)
  unfold vmaFindFree at hmap
  simp only [h.nodes_eq, h.vmaOverlaps_eq, c.alignUp_size, hhint, Option.pure_def, bind_eq_bind,
    bind_some] at hmap
  -- the search does not return the address either
  rw [if_neg fun hand => by simp [hover] at hand] at hmap
  rw [u64_of_lt (hend.trans_lt hlt)] at hover
  exact .inr ⟨.inr (of_decide_eq_true hover), searchGap_start (some.inj hmap)⟩

/-- A range that does not wrap around is the area. -/
theorem MmapCall.area_bounds {file} (halign : pageSize ∣ addr) (hlt : addr < 2 ^ 64)
    (hend : u64 (addr + c.size) ≤ userEnd) (hval : (c.area addr file).Valid) :
    (c.area addr file).start = addr ∧ (c.area addr file).stop = addr + c.size ∧
      addr + c.size ≤ userEnd := by
  have hsize : c.size < 2 ^ 64 := alignUp_lt _
  have hdvd : 4096 ∣ c.size := pageSize_dvd_alignUp _
  have hnonempty := hval.nonempty
  unfold pageSize at halign
  dsimp only [MmapCall.area] at *
  rw [alignDown_pageSize, alignUp_pageSize] at *
  unfold u64 at *
  omega

/-! ### What the search finds -/

/-- Room for `size` bytes at `r`: a page boundary from `low` on, in the space that is searched,
with every area before or after it. -/
structure Room (s : VmaState) (xs : List Nat) (size low r : Nat) : Prop where
  aligned : pageSize ∣ r
  low_le : low ≤ r
  in_space : r + size ≤ spaceEnd
  apart : ∀ p ∈ xs, (s.area p).stop ≤ r ∨ r + size ≤ (s.area p).start

/-- The gaps that the scan looks at, each with its end: before each area, and after the last. -/
def gaps (s : VmaState) : (start : Nat) → List Nat → List (Nat × Nat)
  | start, [] => [(start, spaceEnd)]
  | start, vma :: rest => (start, (s.vmas vma).start) :: gaps s (max start (s.vmas vma).stop) rest

/-- It takes the first that seems large enough. -/
theorem searchGap_eq : searchGap s size start xs =
    ((gaps s start xs).find? fun g => u64 (g.1 + size) ≤ g.2).map Prod.fst := by
  induction xs generalizing start with
  | nil => by_cases hfits : u64 (start + size) ≤ spaceEnd <;> simp [searchGap, gaps, hfits]
  | cons vma rest ih =>
    by_cases hfits : u64 (start + size) ≤ (s.vmas vma).start
    · rw [searchGap, if_pos hfits]
      simp [gaps, hfits]
    · rw [searchGap, if_neg hfits, ← max_def_lt, ih]
      simp [gaps, hfits]

theorem searchGap_eq_none_iff : searchGap s size start xs = none ↔
    ∀ g ∈ gaps s start xs, g.2 < u64 (g.1 + size) := by
  simp [searchGap_eq]

variable {rounded : Nat}

/-- A sum that wraps around is smaller, so a gap that is refused is too small. -/
theorem not_room_of_gaps (hsize : size ≤ rounded)
    (hgaps : ∀ g ∈ gaps s start xs, g.2 < u64 (g.1 + size)) (r : Nat) :
    ¬ Room s xs rounded start r := by
  have hsum : ∀ x, u64 (x + size) ≤ x + rounded := fun x => (Nat.mod_le _ _).trans (by omega)
  induction xs generalizing start with
  | nil =>
    rintro ⟨-, hlow, hend, -⟩
    have hlast : spaceEnd < u64 (start + size) := hgaps _ (mem_singleton.mpr rfl)
    have := hsum start
    omega
  | cons vma rest ih =>
    obtain ⟨hfirst, hgaps⟩ := forall_mem_cons.mp hgaps
    replace hfirst : (s.area vma).start < u64 (start + size) := hfirst
    rintro ⟨hr, hlow, hend, hapart⟩
    obtain ⟨hsplit, hapart⟩ := forall_mem_cons.mp hapart
    have hstop : (s.area vma).stop ≤ r := by
      have := hsum start
      omega
    exact ih hgaps ⟨hr, max_le hlow hstop, hend, hapart⟩

/-- Where there is room, no sum wraps around before the scan gets there. -/
theorem searchGap_room {room r : Nat} (hval : ∀ q ∈ xs, (s.area q).Valid)
    (hsorted : xs.Pairwise fun p q => (s.area p).stop ≤ (s.area q).start)
    (halign : pageSize ∣ start) (hroom : Room s xs size start room)
    (h : searchGap s size start xs = some r) : Room s xs size start r := by
  obtain ⟨hr, hlow, hend, hapart⟩ := hroom
  have hsum : u64 (start + size) = start + size :=
    u64_of_lt ((Nat.add_le_add_right hlow size).trans_lt (hend.trans_lt (by decide)))
  induction xs generalizing start with
  | nil =>
    obtain ⟨hlast, rfl⟩ := ite_eq_some h
    exact ⟨halign, le_rfl, hsum ▸ hlast, by simp⟩
  | cons vma rest ih =>
    obtain ⟨hvma, hval⟩ := forall_mem_cons.mp hval
    obtain ⟨hsplit, hapart⟩ := forall_mem_cons.mp hapart
    obtain ⟨hbef, hsorted⟩ := pairwise_cons.mp hsorted
    have hne := hvma.nonempty
    simp only [searchGap, hsum, ← max_def_lt] at h
    split at h
    case isTrue hfits =>
      cases h
      refine ⟨halign, le_rfl, by omega, forall_mem_cons.mpr ⟨.inr hfits, fun p hp => ?_⟩⟩
      exact .inr ((hfits.trans hne.le).trans (hbef p hp))
    case isFalse hfull =>
    -- the room is behind this area
    have hstop : (s.area vma).stop ≤ room := by
      rcases hsplit with hle | hle
      · exact hle
      · exact absurd ((Nat.add_le_add_right hlow size).trans hle) hfull
    have hmax : pageSize ∣ max start (s.area vma).stop := by
      rcases max_choice start (s.area vma).stop with heq | heq
      · rwa [heq]
      · rw [heq]
        exact hvma.stop_aligned
    have hnext : max start (s.area vma).stop ≤ room := max_le hlow hstop
    obtain ⟨hr', hlow', hend', hapart'⟩ := ih hval hsorted hmax h hnext hapart
      (u64_of_lt ((Nat.add_le_add_right hnext size).trans_lt (hend.trans_lt (by decide))))
    obtain ⟨hlow', hstop'⟩ := max_le_iff.mp hlow'
    exact ⟨hr', hlow', hend', forall_mem_cons.mpr ⟨.inl hstop', hapart'⟩⟩

/-- The size in whole pages. -/
def pageRounded (size : Nat) : Nat := (size + 4095) / 4096 * 4096

theorem alignUp_le_pageRounded (size : Nat) : alignUp size pageSize ≤ pageRounded size := by
  rw [alignUp_pageSize]
  exact Nat.mul_le_mul_right _ (Nat.div_le_div_right (Nat.mod_le _ _))

theorem alignUp_eq_pageRounded (h : pageRounded size < 2 ^ 64) :
    alignUp size pageSize = pageRounded size := by
  unfold pageRounded at h
  rw [alignUp_pageSize, u64_of_lt (by omega), pageRounded]

/-- What a result of `vma_find_free` should be: room for the size in whole pages, and 0 only if
there is none. -/
def FreeFor (s : VmaState) (xs : List Nat) (size : Nat) (result : Option Nat) : Prop :=
  (∀ r, result = some r → Room s xs (pageRounded size) spaceStart r) ∧
    (result = none → ∀ r, ¬ Room s xs (pageRounded size) spaceStart r)

/-- The hint passes the tests, in 64-bit arithmetic. -/
def HintTaken (s : VmaState) (xs : List Nat) (size hint : Nat) : Prop :=
  let stop := u64 (alignUp hint pageSize + alignUp size pageSize)
  spaceStart ≤ alignUp hint pageSize ∧ stop ≤ spaceEnd ∧
    ∀ p ∈ xs, (s.area p).stop ≤ alignUp hint pageSize ∨ stop ≤ (s.area p).start

theorem freeFor_hint_iff {hint} (htaken : HintTaken s xs size hint) :
    FreeFor s xs size (some (alignUp hint pageSize)) ↔
      alignUp hint pageSize + pageRounded size ≤ spaceEnd := by
  refine ⟨fun hfree => (hfree.1 _ rfl).in_space, fun hend => ⟨fun r hr => ?_, by simp⟩⟩
  obtain ⟨hlow, -, hapart⟩ := htaken
  have hlt : spaceEnd < 2 ^ 64 := by decide
  have hsize : alignUp size pageSize = pageRounded size := alignUp_eq_pageRounded (by omega)
  cases hr
  rw [hsize, u64_of_lt (hend.trans_lt hlt)] at hapart
  exact ⟨pageSize_dvd_alignUp hint, hlow, hend, hapart⟩

theorem VmaInv.freeFor_scan_iff (h : VmaInv s xs) :
    FreeFor s xs size (searchGap s (alignUp size pageSize) spaceStart xs) ↔
      (∃ r, Room s xs (pageRounded size) spaceStart r) ∨
        ∀ g ∈ gaps s spaceStart xs, g.2 < u64 (g.1 + alignUp size pageSize) := by
  rw [← searchGap_eq_none_iff]
  constructor
  · intro hfree
    cases hfound : searchGap s (alignUp size pageSize) spaceStart xs with
    | none => exact .inr rfl
    | some r => exact .inl ⟨r, hfree.1 r hfound⟩
  intro hfair
  refine ⟨fun r hr => ?_, fun hzero => ?_⟩
  · rcases hfair with ⟨room, hroom⟩ | hnone
    · have hend := hroom.in_space
      have hlt : spaceEnd < 2 ^ 64 := by decide
      rw [alignUp_eq_pageRounded (by omega)] at hr
      exact searchGap_room h.valid h.sorted (by decide) hroom hr
    · rw [hnone] at hr
      cases hr
  · exact not_room_of_gaps (alignUp_le_pageRounded size) (searchGap_eq_none_iff.mp hzero)

/-- **`vma_find_free` is sound and complete exactly if** the hint, where it passes the tests, has
the size behind it without a wrap-around, and otherwise there is room, or no gap seems large
enough in 64-bit arithmetic. -/
theorem vma_find_free_iff {s : VmaState} {size hint : Nat} (h : VmaInv s xs) :
    ∃ result, vmaFindFree s size hint = some result ∧ (FreeFor s xs size result ↔
      (HintTaken s xs size hint → alignUp hint pageSize + pageRounded size ≤ spaceEnd) ∧
      (¬ HintTaken s xs size hint → (∃ r, Room s xs (pageRounded size) spaceStart r) ∨
        ∀ g ∈ gaps s spaceStart xs, g.2 < u64 (g.1 + alignUp size pageSize))) := by
  unfold vmaFindFree
  simp only [h.nodes_eq, h.vmaOverlaps_eq, Option.pure_def, bind_eq_bind, bind_some,
    Bool.not_eq_true', decide_eq_false_iff_not]
  by_cases htaken : HintTaken s xs size hint
  · have hpass := htaken
    obtain ⟨hlow, hstop, hapart⟩ := hpass
    rw [if_pos]
    · refine ⟨_, rfl, (freeFor_hint_iff htaken).trans ?_⟩
      simp [htaken]
    · refine ⟨?_, hlow, hstop, ?_⟩
      · rintro hzero
        simp [hzero, spaceStart] at hlow
      · rintro ⟨p, hp, hmeets⟩
        have := hapart p hp
        omega
  · rw [if_neg]
    · refine ⟨_, rfl, h.freeFor_scan_iff.trans ?_⟩
      simp [htaken]
    · rintro ⟨-, hlow, hstop, hapart⟩
      refine htaken ⟨hlow, hstop, fun p hp => ?_⟩
      by_contra hmeets
      exact hapart ⟨p, hp, by omega⟩

/-- An empty list. -/
def noAreas : VmaState := vmaListCreate fun _ => ⟨0, 0, 0, 0, none, none, none, 0⟩

theorem vma_find_free_iff_noAreas : ∃ result, vmaFindFree noAreas 0x1800 0x123456 = some result ∧
    FreeFor noAreas [] 0x1800 result := by
  obtain ⟨result, hresult, hiff⟩ := vma_find_free_iff (VmaInv.empty _)
  refine ⟨result, hresult, hiff.mpr ⟨fun htaken => ?_, fun _ => .inl ⟨spaceStart, ?_⟩⟩⟩
  · exact absurd htaken.1 (by decide)
  · exact ⟨by decide, by decide, by decide, by simp⟩

/-- The end of the range wraps around, and the test against the end of the space passes. -/
theorem vma_find_free_wraps : vmaFindFree noAreas 0xFFFFFFFFFFFFF000 0 = some (some spaceStart) ∧
    ¬ FreeFor noAreas [] 0xFFFFFFFFFFFFF000 (some spaceStart) :=
  ⟨by decide, fun h => absurd (h.1 _ rfl).in_space (by decide)⟩

end Calls

end Kurios.Areas
