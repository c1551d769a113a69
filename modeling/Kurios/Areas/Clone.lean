import Kurios.Areas.Mmap

/-!
`vma_list_clone` (`kernel/mm/vma.c`): the list of areas of a forked process.

The nodes of both lists are objects of one slab cache, so the new list is built in the memory
that also holds the old one. The areas are copied in order, and the copy has the same areas
if there is memory for all its nodes (`VmaInv.vmaListClone_spec`). Otherwise there is no copy.
-/

namespace Kurios.Areas

open Base Pmm Option List

variable {fuel new start stop x : Nat} {done rest ys : List Nat} {allocs : List (Option Nat)}
open Heap (kheapStart kheapEnd)

/-- The loop, from the node `vma` of the old list on. `allocs` is what `kmem_cache_alloc`
returns, call by call. The result is `none` if a node cannot be made: the nodes that there are
go back to the slab cache. -/
def cloneNodes : (fuel : Nat) → VmaState → (vma : Option Nat) → (allocs : List (Option Nat)) →
    Option (Option VmaState)
  | _, dst, none, _ => some (some dst)
  | 0, _, some _, _ => none
  | fuel + 1, dst, some vma, allocs => do
    let v := dst.vmas vma
    match ← vmaCreate dst v.start v.stop v.flags v.prot allocs.head?.join with
    | (none, _) => return none
    | (some new, dst) =>
      let v := dst.vmas vma
      let dst := dst.modifyVma new fun w => { w with file := v.file, fileOffset := v.fileOffset }
      cloneNodes fuel dst (dst.vmas vma).next allocs.tail

/-- `vma_list_clone`; `created` says whether there is memory for the list itself. -/
def vmaListClone (src : VmaState) (created : Bool) (allocs : List (Option Nat)) :
    Option (Option VmaState) :=
  if created then cloneNodes walkLimit (vmaListCreate src.vmas) src.list.head allocs
  else some none

/-- The areas of a list, in its order. -/
def VmaState.areas (s : VmaState) : Option (List Area) := s.nodes.map (·.map s.area)

theorem VmaInv.areas_eq {s xs} (h : VmaInv s xs) : s.areas = some (xs.map s.area) := by
  rw [VmaState.areas, h.nodes_eq, map_some]

/-- The first `n` allocations succeed. -/
def supplied : Nat → List (Option Nat) → Bool
  | 0, _ => true
  | n + 1, some _ :: allocs => supplied n allocs
  | _ + 1, _ => false

/-- What the slab cache may return in turn: different objects of the kernel heap that are not
in `live`. -/
structure FreshNodes (live : List Nat) (allocs : List (Option Nat)) : Prop where
  free : ∀ p, some p ∈ allocs → p ∉ live ∧ kheapStart ≤ p ∧ p < kheapEnd
  distinct : (allocs.filterMap id).Nodup

/-! ### A node at the end -/

section Append

variable {s : VmaState} {xs : List Nat} {vma q : Nat}

theorem linkVma_vmas {prev curr} (hprev : prev ≠ some q) (hcurr : curr ≠ some q)
    (hq : q ≠ vma) : (linkVma s vma prev curr).vmas q = s.vmas q := by
  simp [linkVma, storePrev_vmas, if_neg hcurr, storeNext_vmas, if_neg hprev, if_neg hq]

/-- `vma_create` writes to the new node and to nodes of the list. -/
theorem VmaInv.vmaCreate_frame (h : VmaInv s xs) {flags prot s'}
    (hvma : vma ∉ xs) (hcr : vmaCreate s start stop flags prot (some vma) = some (some new, s'))
    (hq : q ∉ xs) (hne : q ≠ vma) : s'.vmas q = s.vmas q := by
  unfold vmaCreate at hcr
  dsimp only at hcr
  split at hcr
  · cases hcr
  rw [h.vmaOverlaps_eq, bind_eq_bind, bind_some] at hcr
  split at hcr
  · cases hcr
  obtain ⟨inserted, hinsert, heq⟩ := bind_eq_some_iff.mp hcr
  obtain rfl : inserted = s' := (Prod.mk.inj (some.inj heq)).2
  -- the insertion point is between nodes of the list
  have hframe := h.frame hvma fun _ =>
    { start := alignDown start pageSize, stop := alignUp stop pageSize, flags, prot }
  have hwalk := fun cond => hframe.links.links.walkWhile_eq cond none hframe.length_le
  obtain ⟨⟨prev, curr⟩, hpoint, rfl⟩ := map_eq_some_iff.mp hinsert
  rw [hframe.head, hwalk, or_none] at hpoint
  cases hpoint
  rw [linkVma_vmas, VmaState.modifyVma_vmas, if_neg hne]
  · intro hprev
    exact hq ((List.takeWhile_prefix _).subset (mem_of_getLast? hprev))
  · intro hcurr
    exact hq ((dropWhile_suffix _).subset (mem_of_head? hcurr))
  · exact hne

/-- An aligned area behind those of the list is put at the end. -/
theorem VmaInv.vmaCreate_last (h : VmaInv s xs) (flags prot : Nat) (hstart : pageSize ∣ start)
    (hstop : pageSize ∣ stop) (hlt : start < stop) (hbound : stop < 2 ^ 64)
    (hbehind : ∀ p ∈ xs, (s.area p).stop ≤ start) (hvma : vma ∉ xs)
    (hheap : kheapStart ≤ vma ∧ vma < kheapEnd) :
    ∃ s', vmaCreate s start stop flags prot (some vma) = some (some vma, s') ∧
      VmaInv s' (xs ++ [vma]) ∧ s'.area vma = ⟨start, stop, flags, prot, none, 0⟩ ∧
      ∀ p ∈ xs, s'.area p = s.area p := by
  have hdown : alignDown start pageSize = start := by
    rw [alignDown_pageSize]
    exact Nat.div_mul_cancel hstart
  have hup : alignUp stop pageSize = stop := by
    obtain ⟨k, hk⟩ : 4096 ∣ stop := hstop
    rw [alignUp_pageSize, u64]
    omega
  have hfresh : ∀ p, some vma = some p → p ∉ xs ∧ kheapStart ≤ p ∧ p < kheapEnd := by
    rintro p ⟨⟩
    exact ⟨hvma, hheap⟩
  have hfree : ¬ ∃ p ∈ xs, start < (s.area p).stop ∧ (s.area p).start < stop := by
    rintro ⟨p, hp, hmeets, -⟩
    exact absurd (hbehind p hp) (not_le.mpr hmeets)
  obtain hfail | ⟨new, s', l, r, hcr, ⟨⟩, hxs, hinv, harea, hsame⟩ :=
    h.create start stop flags prot hfresh
  case inl =>
    unfold vmaCreate at hfail
    simp [hdown, hup, hlt, h.vmaOverlaps_eq, hfree] at hfail
    obtain ⟨_, -, ⟨⟩⟩ := bind_eq_some_iff.mp hfail
  case inr =>
  rw [hdown, hup] at harea
  -- nothing of the list is behind the new area
  obtain rfl : r = [] := by
    apply eq_nil_iff_forall_not_mem.mpr
    intro p hp
    have hafter : (s'.area vma).stop ≤ (s'.area p).start :=
      rel_of_pairwise_cons (pairwise_append.mp hinv.sorted).2.1 hp
    have hmem : p ∈ xs := hxs ▸ mem_append_right l hp
    have hval := (h.valid p hmem).nonempty
    have hbef := hbehind p hmem
    rw [harea, hsame p hmem] at hafter
    dsimp only at hafter
    omega
  rw [append_nil] at hxs
  subst hxs
  exact ⟨s', hcr, hinv, harea, hsame⟩

end Append

/-! ### The copy -/

section Clone

variable {s dst : VmaState} {xs : List Nat}

/-- The loop has copied the nodes `done` to `ys`, and has not changed the old list. -/
structure Copying (s : VmaState) (xs : List Nat) (dst : VmaState) (done ys : List Nat) : Prop where
  list : VmaInv dst ys
  areas : ys.map dst.area = done.map s.area
  source : ∀ x ∈ xs, dst.vmas x = s.vmas x
  apart : ∀ y ∈ ys, y ∉ xs

/-- One iteration, if there is memory for the node. -/
theorem Copying.next (h : VmaInv s xs) (hbound : ∀ p ∈ xs, (s.area p).stop < 2 ^ 64)
    (hxs : xs = done ++ x :: rest) (hc : Copying s xs dst done ys) (hnew : new ∉ xs)
    (hys : new ∉ ys) (hheap : kheapStart ≤ new ∧ new < kheapEnd) :
    ∃ dst', vmaCreate dst (dst.vmas x).start (dst.vmas x).stop (dst.vmas x).flags
        (dst.vmas x).prot (some new) = some (some new, dst') ∧
      Copying s xs (dst'.modifyVma new fun w =>
        { w with file := (dst'.vmas x).file, fileOffset := (dst'.vmas x).fileOffset })
        (done ++ [x]) (ys ++ [new]) := by
  have hx : x ∈ xs := hxs ▸ mem_append_right done mem_cons_self
  have hval := h.valid x hx
  rw [hc.source x hx]
  -- the areas of the copy are those of the nodes before `x`
  have hbehind : ∀ p ∈ ys, (dst.area p).stop ≤ (s.vmas x).start := by
    intro p hp
    have hmem := hc.areas ▸ mem_map_of_mem hp
    obtain ⟨q, hq, heq⟩ := mem_map.mp hmem
    rw [← heq]
    have hsorted := (pairwise_append.mp (hxs ▸ h.sorted)).2.2
    exact hsorted q hq x mem_cons_self
  obtain ⟨dst', hcr, hinv, harea, hsame⟩ := hc.list.vmaCreate_last (s.vmas x).flags
    (s.vmas x).prot hval.start_aligned hval.stop_aligned hval.nonempty (hbound x hx)
    hbehind hys hheap
  have hsource : ∀ q ∈ xs, dst'.vmas q = s.vmas q := by
    intro q hq
    have hne : q ≠ new := fun heq => hnew (heq ▸ hq)
    have hframe := hc.list.vmaCreate_frame hys hcr (fun hin => hc.apart q hin hq) hne
    exact hframe.trans (hc.source q hq)
  refine ⟨dst', hcr, ?_⟩
  rw [hsource x hx]
  constructor
  case list => exact hinv.setFile new _ _
  case areas =>
    rw [map_append, map_append, ← hc.areas]
    congr 1
    · apply map_congr_left
      intro p hp
      have hne : p ≠ new := fun heq => hys (heq ▸ hp)
      rw [← hsame p hp, VmaState.area, VmaState.area, VmaState.modifyVma_vmas, if_neg hne]
    simp only [VmaState.area, Vma.area, Area.mk.injEq] at harea
    simp [VmaState.area, Vma.area, harea]
  case source =>
    intro q hq
    have hne : q ≠ new := fun heq => hnew (heq ▸ hq)
    rw [VmaState.modifyVma_vmas, if_neg hne]
    exact hsource q hq
  case apart =>
  intro y hy
  obtain hy | hy := mem_append.mp hy
  · exact hc.apart y hy
  · rw [mem_singleton.mp hy]
    exact hnew

/-- Without memory for the next node the loop ends. -/
theorem cloneNodes_none (h : VmaInv dst ys) (hnone : allocs.head?.join = none) :
    cloneNodes (fuel + 1) dst (some x) allocs = some none := by
  have hfail : vmaCreate dst (dst.vmas x).start (dst.vmas x).stop (dst.vmas x).flags
      (dst.vmas x).prot none = some (none, dst) := by
    have hfresh : ∀ p, none = some p → p ∉ ys ∧ kheapStart ≤ p ∧ p < kheapEnd := nofun
    obtain hfail | ⟨_, _, _, _, -, ⟨⟩, -⟩ := h.create (dst.vmas x).start (dst.vmas x).stop
      (dst.vmas x).flags (dst.vmas x).prot hfresh
    · exact hfail
  simp [cloneNodes, hnone, hfail]

/-- The loop from the nodes `rest` on. -/
theorem cloneNodes_spec (h : VmaInv s xs) (hbound : ∀ p ∈ xs, (s.area p).stop < 2 ^ 64)
    (hxs : xs = done ++ rest) (hc : Copying s xs dst done ys)
    (hfresh : FreshNodes (xs ++ ys) allocs) (hfuel : rest.length ≤ fuel) :
    if supplied rest.length allocs then
      ∃ dst' zs, cloneNodes fuel dst rest.head? allocs = some (some dst') ∧ Copying s xs dst' xs zs
    else cloneNodes fuel dst rest.head? allocs = some none := by
  induction rest generalizing dst done ys allocs fuel with
  | nil =>
    rw [append_nil] at hxs
    subst hxs
    cases fuel <;> exact ⟨dst, ys, rfl, hc⟩
  | cons x rest ih =>
    obtain ⟨n, rfl⟩ : ∃ n, fuel = n + 1 := Nat.exists_eq_succ_of_ne_zero (Nat.ne_zero_of_lt hfuel)
    match allocs, hfresh with
    | [], _ => exact cloneNodes_none hc.list rfl
    | none :: allocs, _ => exact cloneNodes_none hc.list rfl
    | some new :: allocs, hfresh =>
      obtain ⟨hnew, hheap⟩ := hfresh.free new mem_cons_self
      obtain ⟨hnewxs, hnewys⟩ := not_or.mp (mt mem_append.mpr hnew)
      obtain ⟨hnotin, hdistinct⟩ := nodup_cons.mp hfresh.distinct
      obtain ⟨dst', hcr, hnext⟩ := hc.next h hbound hxs hnewxs hnewys hheap
      have hrest : FreshNodes (xs ++ (ys ++ [new])) allocs := by
        refine ⟨?_, hdistinct⟩
        intro p hp
        obtain ⟨hp', hheap'⟩ := hfresh.free p (mem_cons_of_mem _ hp)
        refine ⟨?_, hheap'⟩
        rw [← append_assoc]
        intro hin
        obtain hin | hin := mem_append.mp hin
        · exact hp' hin
        · obtain rfl := mem_singleton.mp hin
          exact hnotin (mem_filterMap.mpr ⟨some p, hp, rfl⟩)
      have hx : x ∈ xs := hxs ▸ mem_append_right done mem_cons_self
      have hlink : s.next x = rest.head? := (DList.neighbours (hxs ▸ h.links)).2
      have hloop := ih (hxs.trans (append_cons done x rest)) hnext hrest
        (Nat.le_of_succ_le_succ hfuel)
      have hstep : cloneNodes (n + 1) dst (x :: rest).head? (some new :: allocs) =
          cloneNodes n (dst'.modifyVma new fun w =>
            { w with file := (dst'.vmas x).file, fileOffset := (dst'.vmas x).fileOffset })
            rest.head? allocs := by
        have hcurr := congrArg Vma.next (hnext.source x hx)
        rw [show (s.vmas x).next = rest.head? from hlink] at hcurr
        rw [← hcurr]
        simp [cloneNodes, hcr]
      rw [hstep]
      exact hloop

/-- `vma_list_clone` returns. With memory for the list and all its nodes the copy is a list in
order with the same areas, made of other nodes; otherwise there is none. -/
theorem VmaInv.vmaListClone_spec (h : VmaInv s xs) (hbound : ∀ p ∈ xs, (s.area p).stop < 2 ^ 64)
    (hfresh : FreshNodes xs allocs) (created : Bool) :
    if created && supplied xs.length allocs then
      ∃ dst ys, vmaListClone s created allocs = some (some dst) ∧ VmaInv dst ys ∧
        ys.map dst.area = xs.map s.area ∧ ∀ y ∈ ys, y ∉ xs
    else vmaListClone s created allocs = some none := by
  cases created with
  | false => rfl
  | true =>
    have hstart : Copying s xs (vmaListCreate s.vmas) [] [] :=
      ⟨VmaInv.empty s.vmas, rfl, fun _ _ => rfl, nofun⟩
    have hloop := cloneNodes_spec h hbound rfl hstart (by rwa [append_nil]) h.length_le
    rw [Bool.true_and, vmaListClone, if_pos rfl, h.head]
    split
    case isTrue hall =>
      rw [if_pos hall] at hloop
      obtain ⟨dst, ys, heq, hcopied⟩ := hloop
      exact ⟨dst, ys, heq, hcopied.list, hcopied.areas, hcopied.apart⟩
    case isFalse hall =>
      rw [if_neg hall] at hloop
      exact hloop

end Clone

end Kurios.Areas
