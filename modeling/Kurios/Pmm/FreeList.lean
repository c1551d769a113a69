import Kurios.Base.DList
import Kurios.Base.Arena
import Kurios.Pmm.Defs

/-!
The eleven free lists as a set of blocks.

`Lists m free` says that the intrusive lists, the list heads and counters and the
`PAGE_FLAG_BUDDY`/`order` fields of the descriptors together represent exactly
the blocks `free`. `free_list_add` and `free_list_remove` are inserting and
erasing one block (`Lists.add`, `Lists.remove`); every other descriptor write of
the allocator leaves the represented set alone (`Lists.frame`).
-/

namespace Kurios.Pmm

open Base Function Finset

/-! ### What the descriptor updates do, field by field -/

namespace MemInfo

variable (m : MemInfo) (p q k : Nat) (f : Page → Page)

@[simp] theorem modifyPage_pages :
    (m.modifyPage p f).pages q = if q = p then f (m.pages p) else m.pages q := by
  simp [modifyPage, update_apply]

@[simp] theorem modifyPage_rest : (m.modifyPage p f).zone = m.zone ∧
    (m.modifyPage p f).totalPages = m.totalPages ∧ (m.modifyPage p f).freePages = m.freePages :=
  ⟨rfl, rfl, rfl⟩

@[simp] theorem setHead_fields (h : Option Nat) : (m.setHead k h).pages = m.pages ∧
    (∀ j, (m.setHead k h).zone.freeLists j = if j = k then h else m.zone.freeLists j) ∧
    (m.setHead k h).zone.freeCount = m.zone.freeCount ∧
    (m.setHead k h).zone.freePages = m.zone.freePages ∧
    (m.setHead k h).totalPages = m.totalPages ∧ (m.setHead k h).freePages = m.freePages := by
  simp [setHead, update_apply]

@[simp] theorem setCount_fields (n : Nat) : (m.setCount k n).pages = m.pages ∧
    (∀ j, (m.setCount k n).zone.freeCount j = if j = k then n else m.zone.freeCount j) ∧
    (m.setCount k n).zone.freeLists = m.zone.freeLists ∧
    (m.setCount k n).zone.freePages = m.zone.freePages ∧
    (m.setCount k n).totalPages = m.totalPages ∧ (m.setCount k n).freePages = m.freePages := by
  simp [setCount, update_apply]

/-- A loop that rewrites each descriptor of a range once. -/
theorem forRange_modifyPage (base lo hi : Nat) :
    forRange lo hi (fun i m => m.modifyPage (base + i) f) m =
      { m with pages := fun q =>
          if base + lo ≤ q ∧ q < base + hi then f (m.pages q) else m.pages q } := by
  rcases Nat.lt_or_ge hi lo with hlt | hle
  · rw [forRange_of_le (by omega)]
    have hnone : ∀ q, ¬(base + lo ≤ q ∧ q < base + hi) := by omega
    simp [if_neg (hnone _)]
  refine forRange_inv (fun i (s : MemInfo) => s =
    { m with pages := fun q =>
        if base + lo ≤ q ∧ q < base + i then f (m.pages q) else m.pages q }) hle ?_ ?_
  · have hnone : ∀ q, ¬(base + lo ≤ q ∧ q < base + lo) := by omega
    simp [if_neg (hnone _)]
  rintro i s hi - rfl
  simp only [modifyPage, MemInfo.mk.injEq, true_and, and_true]
  funext q
  by_cases hq : q = base + i
  · subst hq
    simp [show base + lo ≤ base + i by omega]
  · rw [update_of_ne hq]
    exact if_congr (by omega) rfl rfl

end MemInfo

section FreeListAdd

variable (m : MemInfo) (p k : Nat)

theorem freeListAdd_pages (q : Nat) :
    (freeListAdd m p k).pages q =
      let old := if q = p then
          { m.pages p with
            prev := none, next := m.zone.freeLists k, order := k
            flags := { (m.pages p).flags with buddy := true } }
        else m.pages q
      if m.zone.freeLists k = some q then { old with prev := some p } else old := by
  unfold freeListAdd
  cases hk : m.zone.freeLists k with
  | none => simp
  | some h =>
    by_cases hq : q = h
    · subst hq
      simp
    · simp [hq, Ne.symm hq]

@[simp] theorem freeListAdd_page (q : Nat) :
    ((freeListAdd m p k).pages q).next = (if q = p then m.zone.freeLists k else (m.pages q).next) ∧
    ((freeListAdd m p k).pages q).prev = (if m.zone.freeLists k = some q then some p
      else if q = p then none else (m.pages q).prev) ∧
    ((freeListAdd m p k).pages q).flags =
      (if q = p then { (m.pages p).flags with buddy := true } else (m.pages q).flags) ∧
    ((freeListAdd m p k).pages q).order = (if q = p then k else (m.pages q).order) ∧
    ((freeListAdd m p k).pages q).refcount = (m.pages q).refcount := by
  rw [freeListAdd_pages]
  split_ifs <;> simp_all

@[simp] theorem freeListAdd_zone :
    (∀ j, (freeListAdd m p k).zone.freeLists j = if j = k then some p else m.zone.freeLists j) ∧
    (∀ j, (freeListAdd m p k).zone.freeCount j =
      if j = k then m.zone.freeCount k + 1 else m.zone.freeCount j) ∧
    (freeListAdd m p k).zone.freePages = m.zone.freePages ∧
    (freeListAdd m p k).totalPages = m.totalPages ∧
    (freeListAdd m p k).freePages = m.freePages := by
  unfold freeListAdd
  cases h : m.zone.freeLists k <;> simp

end FreeListAdd

section Unlink

variable (m : MemInfo) (p k q : Nat)

theorem unlinkPrev_pages :
    (unlinkPrev m p k).pages q =
      if (m.pages p).prev = some q then { m.pages q with next := (m.pages p).next }
      else m.pages q := by
  unfold unlinkPrev
  cases (m.pages p).prev with
  | none => simp
  | some r =>
    by_cases h : q = r
    · simp [h]
    · simp [h, Ne.symm h]

theorem unlinkNext_pages :
    (unlinkNext m p).pages q =
      if (m.pages p).next = some q then { m.pages q with prev := (m.pages p).prev }
      else m.pages q := by
  unfold unlinkNext
  cases (m.pages p).next with
  | none => simp
  | some r =>
    by_cases h : q = r
    · simp [h]
    · simp [h, Ne.symm h]

@[simp] theorem unlinkPrev_zone : (∀ j, (unlinkPrev m p k).zone.freeLists j =
      if j = k ∧ (m.pages p).prev = none then (m.pages p).next else m.zone.freeLists j) ∧
    (unlinkPrev m p k).zone.freeCount = m.zone.freeCount ∧
    (unlinkPrev m p k).totalPages = m.totalPages ∧ (unlinkPrev m p k).freePages = m.freePages ∧
    (unlinkPrev m p k).zone.freePages = m.zone.freePages := by
  unfold unlinkPrev
  cases (m.pages p).prev <;> simp

@[simp] theorem unlinkNext_rest : (unlinkNext m p).zone = m.zone ∧
    (unlinkNext m p).totalPages = m.totalPages ∧ (unlinkNext m p).freePages = m.freePages := by
  unfold unlinkNext
  split <;> simp

end Unlink

section FreeListRemove

variable (m : MemInfo) (p k : Nat)

@[simp] theorem freeListRemove_zone : (∀ j, (freeListRemove m p k).zone.freeLists j =
      if j = k ∧ (m.pages p).prev = none then (m.pages p).next else m.zone.freeLists j) ∧
    (∀ j, (freeListRemove m p k).zone.freeCount j =
      if j = k then m.zone.freeCount k - 1 else m.zone.freeCount j) ∧
    (freeListRemove m p k).zone.freePages = m.zone.freePages ∧
    (freeListRemove m p k).totalPages = m.totalPages ∧
    (freeListRemove m p k).freePages = m.freePages := by
  simp [freeListRemove]

@[simp] theorem freeListRemove_pages (q : Nat) : ((freeListRemove m p k).pages q).refcount =
      (m.pages q).refcount ∧ ((freeListRemove m p k).pages q).order = (m.pages q).order ∧
    ((freeListRemove m p k).pages q).flags =
      if q = p then { (m.pages p).flags with buddy := false } else (m.pages q).flags := by
  simp only [freeListRemove, MemInfo.setCount_fields, MemInfo.modifyPage_pages, unlinkNext_pages,
    unlinkPrev_pages]
  split_ifs <;> simp_all

/-- The links of the other pages, for a page that is not linked to itself. -/
theorem freeListRemove_links {m p} (hprev : (m.pages p).prev ≠ some p) {q} (hq : q ≠ p) :
    ((freeListRemove m p k).pages q).next =
        (if (m.pages p).prev = some q then (m.pages p).next else (m.pages q).next) ∧
      ((freeListRemove m p k).pages q).prev =
        (if (m.pages p).next = some q then (m.pages p).prev else (m.pages q).prev) := by
  simp only [freeListRemove, MemInfo.setCount_fields, MemInfo.modifyPage_pages, unlinkNext_pages,
    unlinkPrev_pages, if_neg hprev, if_neg hq]
  split_ifs <;> simp_all

end FreeListRemove

/-! ### The represented set of free blocks -/

/-- Free list `k` links the pages `xs`, in this order. -/
structure FreeList (m : MemInfo) (k : Nat) (xs : List Nat) : Prop where
  links : DList (fun p => (m.pages p).next) (fun p => (m.pages p).prev) xs
  head : m.zone.freeLists k = xs.head?
  count : m.zone.freeCount k = xs.length

/-- The free lists, their counters and the descriptors represent the blocks `free`:
every list links the blocks of its order, and `PAGE_FLAG_BUDDY` with the block's
order is on the first page of each and on no other page. -/
structure Lists (m : MemInfo) (free : Finset Block) : Prop where
  list : ∀ k ≤ maxOrder, ∃ xs, FreeList m k xs ∧ ∀ p, p ∈ xs ↔ ⟨p, k⟩ ∈ free
  order_le : ∀ b ∈ free, b.order ≤ maxOrder
  flag : ∀ b ∈ free, (m.pages b.base).flags.buddy = true ∧ (m.pages b.base).order = b.order
  only : ∀ p < m.totalPages, (m.pages p).flags.buddy = true → ∃ k, ⟨p, k⟩ ∈ free

namespace Lists

variable {m m' : MemInfo} {free : Finset Block} {p k : Nat}

/-- The order of a free block is written on its first page. -/
theorem order_eq (h : Lists m free) {j} (hj : ⟨p, j⟩ ∈ free) (hk : ⟨p, k⟩ ∈ free) : j = k :=
  (h.flag _ hj).2.symm.trans (h.flag _ hk).2

/-- Writes that keep the links, the list heads and the buddy marks keep the set. -/
theorem frame (h : Lists m free) (hzone : m'.zone.freeLists = m.zone.freeLists)
    (hcnt : m'.zone.freeCount = m.zone.freeCount) (htotal : m'.totalPages = m.totalPages)
    (hnext : ∀ q, (m'.pages q).next = (m.pages q).next)
    (hprev : ∀ q, (m'.pages q).prev = (m.pages q).prev)
    (hbuddy : ∀ q, (m'.pages q).flags.buddy = (m.pages q).flags.buddy)
    (horder : ∀ b ∈ free, (m'.pages b.base).order = (m.pages b.base).order) : Lists m' free where
  list k hk := by
    obtain ⟨xs, hxs, hmem⟩ := h.list k hk
    refine ⟨xs, ⟨hxs.links.frame (fun y _ => hnext y) fun y _ => hprev y, ?_, ?_⟩, hmem⟩
    · rw [hzone, hxs.head]
    · rw [hcnt, hxs.count]
  order_le := h.order_le
  flag b hb := by
    rw [hbuddy, horder b hb]
    exact h.flag b hb
  only q hq hb := by
    rw [htotal] at hq
    rw [hbuddy] at hb
    exact h.only q hq hb

/-- `free_list_add` inserts one block. -/
theorem add (h : Lists m free) (hk : k ≤ maxOrder) (hp : ∀ b ∈ free, b.base ≠ p) :
    Lists (freeListAdd m p k) (insert ⟨p, k⟩ free) where
  list j hj := by
    obtain ⟨xs, hxs, hmem⟩ := h.list j hj
    have hpx : ∀ y ∈ xs, y ≠ p := fun y hy => hp _ ((hmem y).mp hy)
    by_cases hjk : j = k
    · subst hjk
      refine ⟨p :: xs, ⟨?_, by simp, by simp [hxs.count]⟩, fun q => by simp [hmem]⟩
      have hnotin : p ∉ xs := fun hm => hpx p hm rfl
      refine hxs.links.push hnotin ?_ ?_ (fun y hy => ?_) fun y hy => ?_
      · have hne : m.zone.freeLists j ≠ some p := fun he =>
          hnotin (List.mem_of_head? (hxs.head ▸ he))
        simp [hne]
      · simp [hxs.head]
      · simp [hpx y hy]
      · simp [hpx y hy, hxs.head]
    refine ⟨xs, ⟨hxs.links.frame (fun y hy => ?_) fun y hy => ?_, ?_, ?_⟩, fun q => ?_⟩
    · simp [hpx y hy]
    · -- The old head of list `k` is not on list `j`.
      have hne : m.zone.freeLists k ≠ some y := by
        intro he
        obtain ⟨ys, hys, hymem⟩ := h.list k hk
        have hyk : y ∈ ys := List.mem_of_head? (hys.head ▸ he)
        exact hjk (h.order_eq ((hmem y).mp hy) ((hymem y).mp hyk))
      simp [hne, hpx y hy]
    · simp [hjk, hxs.head]
    · simp [hjk, hxs.count]
    · simp [hmem, hjk]
  order_le b hb := by
    rcases mem_insert.mp hb with rfl | hb
    · exact hk
    · exact h.order_le b hb
  flag b hb := by
    rcases mem_insert.mp hb with rfl | hb
    · simp
    · simpa [hp b hb] using h.flag b hb
  only q hq hb := by
    by_cases hqp : q = p
    · exact ⟨k, by simp [hqp]⟩
    · obtain ⟨j, hj⟩ := h.only q (by simpa using hq) (by simpa [hqp] using hb)
      exact ⟨j, mem_insert_of_mem hj⟩

/-- `free_list_remove` erases one block. -/
theorem remove (h : Lists m free) (hb : ⟨p, k⟩ ∈ free) :
    Lists (freeListRemove m p k) (free.erase ⟨p, k⟩) := by
  obtain ⟨ps, hps, hpmem⟩ := h.list k (h.order_le _ hb)
  have hpin : p ∈ ps := (hpmem p).mpr hb
  have hself := hps.links.prev_ne_self hpin
  refine ⟨fun j hj => ?_, fun b hb => h.order_le b (mem_of_mem_erase hb), fun b hb' => ?_,
    fun q hq hbud => ?_⟩
  · by_cases hjk : j = k
    · subst hjk
      refine ⟨ps.erase p, ⟨?_, ?_, ?_⟩, fun q => ?_⟩
      · exact hps.links.remove hpin (fun y _ hy => (freeListRemove_links j hself hy).1)
          fun y _ hy => (freeListRemove_links j hself hy).2
      · rw [hps.links.head?_erase hpin]
        simp [hps.head]
      · simp [hps.count, List.length_erase_of_mem hpin]
      · rw [hps.links.nodup.mem_erase_iff, hpmem, mem_erase]
        simp
    obtain ⟨xs, hxs, hmem⟩ := h.list j hj
    -- Neither the page nor its neighbours, which are on list `k`, are on list `j`.
    have hother : ∀ y ∈ xs, y ∉ ps := fun y hy hyp =>
      hjk (h.order_eq ((hmem y).mp hy) ((hpmem y).mp hyp))
    refine ⟨xs, ⟨hxs.links.frame (fun y hy => ?_) fun y hy => ?_, ?_, ?_⟩, fun q => ?_⟩
    · have hyp : y ≠ p := fun he => hother y hy (he ▸ hpin)
      have hne : (m.pages p).prev ≠ some y := fun he => hother y hy (hps.links.prev_mem hpin he)
      rw [(freeListRemove_links k hself hyp).1, if_neg hne]
    · have hyp : y ≠ p := fun he => hother y hy (he ▸ hpin)
      have hne : (m.pages p).next ≠ some y := fun he => hother y hy (hps.links.next_mem hpin he)
      rw [(freeListRemove_links k hself hyp).2, if_neg hne]
    · simp [hjk, hxs.head]
    · simp [hjk, hxs.count]
    · simp [hmem, hjk]
  · obtain ⟨hne, hfree⟩ := mem_erase.mp hb'
    have hbase : b.base ≠ p := by
      rintro rfl
      have horder : b.order = k := h.order_eq hfree hb
      exact hne (by rw [← horder])
    simpa [hbase] using h.flag b hfree
  have hqp : q ≠ p := by
    rintro rfl
    simp at hbud
  obtain ⟨j, hj⟩ := h.only q (by simpa using hq) (by simpa [hqp] using hbud)
  exact ⟨j, mem_erase.mpr ⟨by simp [hqp], hj⟩⟩

end Lists

end Kurios.Pmm
