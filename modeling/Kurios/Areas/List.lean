import Kurios.Areas.Defs

/-!
The VMA list is a sorted list of disjoint areas.

`VmaInv s xs` says that the links spell out the nodes `xs`, that their areas are
page aligned and not empty, and that each ends before the next one starts. Under
it the three searches, whose loops leave early, are plain searches in `xs`
(`vmaFind_eq`, `vmaFindOrNext_eq`, `vmaOverlaps_eq`); and since `vma_create` asks
`vma_overlaps` first, it keeps the invariant (`VmaInv.create`).
-/

namespace Kurios.Areas

open Base Pmm Option List
open Heap (kheapStart kheapEnd)

variable {vma addr p : Nat}

/-! ### Fields -/

/-- What a node says about the address space, without its links. -/
structure Area where
  start : Nat
  stop : Nat
  flags : Nat
  prot : Nat
  file : Option Nat
  fileOffset : Nat
deriving DecidableEq, Repr

def Vma.area (v : Vma) : Area := ⟨v.start, v.stop, v.flags, v.prot, v.file, v.fileOffset⟩

def VmaState.area (s : VmaState) (p : Nat) : Area := (s.vmas p).area

namespace VmaState

variable (s : VmaState) (p q : Nat) (f : Vma → Vma)

@[simp] theorem modifyVma_vmas :
    (s.modifyVma p f).vmas q = if q = p then f (s.vmas p) else s.vmas q := by
  simp [modifyVma, Function.update_apply]

@[simp] theorem modifyVma_list : (s.modifyVma p f).list = s.list := rfl

@[simp] theorem setHead_fields (h : Option Nat) :
    (s.setHead h).vmas = s.vmas ∧ (s.setHead h).list = { s.list with head := h } := ⟨rfl, rfl⟩

@[simp] theorem setTail_fields (h : Option Nat) :
    (s.setTail h).vmas = s.vmas ∧ (s.setTail h).list = { s.list with tail := h } := ⟨rfl, rfl⟩

@[simp] theorem setCount_fields (n : Nat) :
    (s.setCount n).vmas = s.vmas ∧ (s.setCount n).list = { s.list with count := n } := ⟨rfl, rfl⟩

@[simp] theorem setCount_links (n : Nat) : (s.setCount n).area q = s.area q ∧
    (s.setCount n).next q = s.next q ∧ (s.setCount n).prev q = s.prev q := ⟨rfl, rfl, rfl⟩

end VmaState

section Store

variable (s : VmaState) (x value : Option Nat) (q : Nat)

theorem storeNext_vmas :
    (storeNext s x value).vmas q =
      if x = some q then { s.vmas q with next := value } else s.vmas q := by
  cases x with
  | none => simp [storeNext]
  | some p =>
    by_cases hq : q = p
    · simp [storeNext, hq]
    · simp [storeNext, hq, Ne.symm hq]

theorem storePrev_vmas :
    (storePrev s x value).vmas q =
      if x = some q then { s.vmas q with prev := value } else s.vmas q := by
  cases x with
  | none => simp [storePrev]
  | some p =>
    by_cases hq : q = p
    · simp [storePrev, hq]
    · simp [storePrev, hq, Ne.symm hq]

@[simp] theorem storeNext_list : (storeNext s x value).list =
    { s.list with head := if x = none then value else s.list.head } := by
  cases x <;> simp [storeNext]

@[simp] theorem storePrev_list : (storePrev s x value).list =
    { s.list with tail := if x = none then value else s.list.tail } := by
  cases x <;> simp [storePrev]

@[simp] theorem storeNext_fields : (storeNext s x value).area q = s.area q ∧
    (storeNext s x value).prev q = s.prev q ∧
    (storeNext s x value).next q = if x = some q then value else s.next q := by
  simp only [VmaState.area, VmaState.prev, VmaState.next, storeNext_vmas]
  split <;> exact ⟨rfl, rfl, rfl⟩

@[simp] theorem storePrev_fields : (storePrev s x value).area q = s.area q ∧
    (storePrev s x value).next q = s.next q ∧
    (storePrev s x value).prev q = if x = some q then value else s.prev q := by
  simp only [VmaState.area, VmaState.prev, VmaState.next, storePrev_vmas]
  split <;> exact ⟨rfl, rfl, rfl⟩

end Store

section Link

variable (s : VmaState) (vma : Nat) (prev curr : Option Nat) (q : Nat)

@[simp] theorem linkVma_fields : (linkVma s vma prev curr).area q = s.area q ∧
    (linkVma s vma prev curr).next q =
      (if prev = some q then some vma else if q = vma then curr else s.next q) ∧
    (linkVma s vma prev curr).prev q =
      if curr = some q then some vma else if q = vma then prev else s.prev q := by
  simp only [linkVma, VmaState.setCount_links, storePrev_fields, storeNext_fields]
  by_cases hq : q = vma <;>
    simp [VmaState.area, Vma.area, VmaState.next, VmaState.prev, hq]

theorem linkVma_list : (linkVma s vma prev curr).list =
    ⟨if prev = none then some vma else s.list.head,
      if curr = none then some vma else s.list.tail, incr32 s.list.count⟩ := by
  simp [linkVma]

end Link

/-- The two stores of `vma_destroy`, for a node that is not linked to itself. -/
theorem vmaDestroy_eq {s} (hself : s.prev vma ≠ some vma) :
    vmaDestroy s vma =
      (storePrev (storeNext s (s.prev vma) (s.next vma)) (s.next vma) (s.prev vma)).setCount
        (decr32 s.list.count) := by
  have hsame : (storeNext s (s.prev vma) (s.next vma)).vmas vma = s.vmas vma := by
    rw [storeNext_vmas, if_neg hself]
  unfold vmaDestroy
  simp only [storePrev_list, storeNext_list]
  change (storePrev (storeNext s (s.prev vma) (s.next vma))
    ((storeNext s (s.prev vma) (s.next vma)).vmas vma).next
    ((storeNext s (s.prev vma) (s.next vma)).vmas vma).prev).setCount _ = _
  rw [hsame]
  rfl

/-! ### The invariant -/

/-- Page aligned and not empty. -/
structure Area.Valid (a : Area) : Prop where
  start_aligned : pageSize ∣ a.start
  stop_aligned : pageSize ∣ a.stop
  nonempty : a.start < a.stop

/-- The list links the nodes `xs`, whose areas are valid, in increasing order and
disjoint. -/
structure VmaInv (s : VmaState) (xs : List Nat) : Prop where
  links : DList s.next s.prev xs
  head : s.list.head = xs.head?
  tail : s.list.tail = xs.getLast?
  count : s.list.count = xs.length
  valid : ∀ p ∈ xs, (s.area p).Valid
  sorted : xs.Pairwise fun p q => (s.area p).stop ≤ (s.area q).start
  heap : ∀ p ∈ xs, kheapStart ≤ p ∧ p < kheapEnd

namespace VmaInv

variable {s : VmaState} {xs : List Nat}

/-- Distinct nodes in the kernel heap: fewer than a 32-bit counter counts, and
fewer than a walk is given. -/
theorem length_le (h : VmaInv s xs) : xs.length ≤ walkLimit := by
  have hsub : xs.toFinset ⊆ Finset.Ico kheapStart kheapEnd := by
    intro p hp
    exact Finset.mem_Ico.mpr (h.heap p (mem_toFinset.mp hp))
  have hcard := Finset.card_le_card hsub
  rwa [toFinset_card_of_nodup h.links.nodup, Nat.card_Ico] at hcard

theorem empty (vmas : Nat → Vma) : VmaInv (vmaListCreate vmas) [] :=
  ⟨DList.nil, rfl, rfl, rfl, by simp, by simp, by simp⟩

/-- Of two nodes, the later one starts after the earlier one. -/
theorem start_lt (h : VmaInv s xs) : xs.Pairwise fun p q => (s.area p).start < (s.area q).start :=
  h.sorted.imp_of_mem fun hp _ => (h.valid _ hp).nonempty.trans_le

/-! ### The searches -/

section

variable (h : VmaInv s xs)
include h

/-- A walk of the list, as a search in `xs`. -/
theorem walk_eq {β : Type} (visit : Nat → Option β) (done : β) :
    walk s.next visit done walkLimit s.list.head = some ((xs.findSome? visit).getD done) := by
  rw [h.head]
  exact h.links.links.walk_eq visit done h.length_le

/-- `vma_find` finds the node whose area contains the address. -/
theorem vmaFind_eq (addr : Nat) :
    vmaFind s addr =
      some (xs.find? fun p => decide ((s.area p).start ≤ addr ∧ addr < (s.area p).stop)) := by
  refine (h.walk_eq _ none).trans (congrArg some ?_)
  refine (findSome?_early (fun p => (s.area p).start ≤ addr ∧ addr < (s.area p).stop)
    (fun p => addr < (s.area p).start) some none ?_).trans ?_
  · refine h.start_lt.imp fun {p q} hlt hpast hhit => ?_
    omega
  · cases xs.find? _ <;> rfl

/-- `vma_find_or_next` finds the first node whose area ends above the address. -/
theorem vmaFindOrNext_eq (addr : Nat) :
    vmaFindOrNext s addr = some (xs.find? fun p => decide (addr < (s.area p).stop)) := by
  refine (h.walk_eq _ none).trans (congrArg some ?_)
  have hearly := findSome?_early (fun p => addr < (s.area p).stop) (fun _ => False) some none
    (pairwise_of_forall (l := xs) fun _ _ hf => hf.elim)
  refine hearly.trans ?_
  cases xs.find? _ <;> rfl

/-- `vma_overlaps` tests every area of the list. -/
theorem vmaOverlaps_eq (start stop : Nat) : vmaOverlaps s start stop =
      some (decide (∃ p ∈ xs, start < (s.area p).stop ∧ (s.area p).start < stop)) := by
  refine (h.walk_eq _ false).trans (congrArg some ?_)
  refine (findSome?_early (fun p => start < (s.area p).stop ∧ (s.area p).start < stop)
    (fun p => stop ≤ (s.area p).start) (fun _ => true) false ?_).trans ?_
  · refine h.start_lt.imp fun {p q} hlt hpast hhit => ?_
    omega
  · exact find?_decide

/-- Two nodes whose areas share an address are the same node. -/
theorem eq_of_contains {q} (hp : p ∈ xs) (hq : q ∈ xs)
    (hpa : (s.area p).start ≤ addr ∧ addr < (s.area p).stop)
    (hqa : (s.area q).start ≤ addr ∧ addr < (s.area q).stop) : p = q := by
  by_contra hne
  have hsymm : Std.Symm fun p q =>
      (s.area p).stop ≤ (s.area q).start ∨ (s.area q).stop ≤ (s.area p).start :=
    ⟨fun _ _ => Or.symm⟩
  have hsorted : xs.Pairwise fun p q =>
      (s.area p).stop ≤ (s.area q).start ∨ (s.area q).stop ≤ (s.area p).start :=
    h.sorted.imp .inl
  have hapart := hsorted.forall hp hq hne
  omega

/-- The result of `vma_find` is the one area that contains the address. -/
theorem find_contains_iff :
    (xs.find? fun p => decide ((s.area p).start ≤ addr ∧ addr < (s.area p).stop)) = some p ↔
      p ∈ xs ∧ (s.area p).start ≤ addr ∧ addr < (s.area p).stop := by
  constructor
  · intro hfind
    exact ⟨mem_of_find?_eq_some hfind, by simpa using find?_some hfind⟩
  rintro ⟨hp, hpa⟩
  obtain ⟨q, hfind⟩ : ∃ q, (xs.find? fun p =>
      decide ((s.area p).start ≤ addr ∧ addr < (s.area p).stop)) = some q :=
    isSome_iff_exists.mp (find?_isSome.mpr ⟨p, hp, decide_eq_true hpa⟩)
  have hqa : (s.area q).start ≤ addr ∧ addr < (s.area q).stop := by
    simpa using find?_some hfind
  rwa [h.eq_of_contains hp (mem_of_find?_eq_some hfind) hpa hqa]

/-- The result of `vma_find_or_next` is the lowest area that ends above the address. -/
theorem find_above_iff :
    (xs.find? fun p => decide (addr < (s.area p).stop)) = some p ↔
      p ∈ xs ∧ addr < (s.area p).stop ∧
        ∀ q ∈ xs, addr < (s.area q).stop → (s.area p).start ≤ (s.area q).start := by
  -- The first hit is the lowest one.
  have hlowest : ∀ {r}, (xs.find? fun p => decide (addr < (s.area p).stop)) = some r →
      r ∈ xs ∧ addr < (s.area r).stop ∧
        ∀ q ∈ xs, addr < (s.area q).stop → (s.area r).start ≤ (s.area q).start := by
    intro r hfind
    obtain ⟨hr, l, l', rfl, hmiss⟩ := find?_eq_some_iff_append.mp hfind
    refine ⟨by simp, by simpa using hr, fun q hq hqa => ?_⟩
    rcases mem_append.mp hq with hq | hq
    · have hno := hmiss q hq
      simp only [Bool.not_eq_true', decide_eq_false_iff_not] at hno
      exact absurd hqa hno
    rcases mem_cons.mp hq with rfl | hq
    · exact le_rfl
    · have hlt := (pairwise_append.mp h.start_lt).2.1
      exact (rel_of_pairwise_cons hlt hq).le
  refine ⟨hlowest, ?_⟩
  rintro ⟨hp, hpa, hmin⟩
  obtain ⟨r, hfind⟩ : ∃ r, (xs.find? fun p => decide (addr < (s.area p).stop)) = some r :=
    isSome_iff_exists.mp (find?_isSome.mpr ⟨p, hp, decide_eq_true hpa⟩)
  obtain ⟨hr, hra, hrmin⟩ := hlowest hfind
  have hstart : (s.area r).start = (s.area p).start := le_antisymm (hrmin p hp hpa) (hmin r hr hra)
  have hpv := (h.valid p hp).nonempty
  have hrv := (h.valid r hr).nonempty
  rwa [h.eq_of_contains hp hr ⟨le_rfl, hpv⟩ ⟨hstart.le, hstart ▸ hrv⟩]

/-! ### Creating an area -/

/-- The nodes before and after the insertion point, when nothing overlaps. -/
theorem insertion_sorted {start stop} (hlt : start < stop)
    (hfree : ∀ p ∈ xs, ¬ (start < (s.area p).stop ∧ (s.area p).start < stop)) :
    (∀ p ∈ xs.takeWhile fun p => decide ((s.area p).start < start), (s.area p).stop ≤ start) ∧
      ∀ p ∈ xs.dropWhile fun p => decide ((s.area p).start < start), stop ≤ (s.area p).start := by
  constructor
  · intro p hp
    have hbef := mem_takeWhile_imp hp
    simp only [decide_eq_true_eq] at hbef
    have := hfree p ((List.takeWhile_prefix _).subset hp)
    omega
  -- The first node after the insertion point starts at `start` or later, so do the others.
  intro p hp
  have hafter : start ≤ (s.area p).start := by
    have hstop := not_of_mem_dropWhile (h.start_lt.imp fun {p q} hlt hp => by
      simp only [decide_eq_false_iff_not] at hp ⊢
      omega) hp
    simpa using hstop
  have hin := (dropWhile_suffix _).subset hp
  have := hfree p hin
  have := (h.valid p hin).nonempty
  omega

/-- Writes to a node that is not on the list. -/
theorem frame (hvma : vma ∉ xs) (f : Vma → Vma) : VmaInv (s.modifyVma vma f) xs := by
  have hsame : ∀ p ∈ xs, (s.modifyVma vma f).vmas p = s.vmas p := by
    intro p hp
    have hne : p ≠ vma := fun he => hvma (he ▸ hp)
    simp [hne]
  have harea : ∀ p ∈ xs, (s.modifyVma vma f).area p = s.area p := fun p hp =>
    congrArg Vma.area (hsame p hp)
  refine ⟨h.links.frame (fun p hp => ?_) (fun p hp => ?_), h.head, h.tail, h.count,
    fun p hp => ?_, ?_, h.heap⟩
  · exact congrArg Vma.next (hsame p hp)
  · exact congrArg Vma.prev (hsame p hp)
  · rw [harea p hp]
    exact h.valid p hp
  · refine h.sorted.imp_of_mem fun {p q} hp hq hle => ?_
    rwa [harea p hp, harea q hq]

end

/-- The stores of `vma_insert`, between the nodes `l` and the nodes `r`. -/
theorem link {l r} (h : VmaInv s (l ++ r)) (hvma : vma ∉ l ++ r)
    (hheap : kheapStart ≤ vma ∧ vma < kheapEnd) (hval : (s.area vma).Valid)
    (hl : ∀ p ∈ l, (s.area p).stop ≤ (s.area vma).start)
    (hr : ∀ p ∈ r, (s.area vma).stop ≤ (s.area p).start) :
    VmaInv (linkVma s vma l.getLast? r.head?) (l ++ vma :: r) := by
  have hnl : l.getLast? ≠ some vma := fun he => hvma (mem_append_left _ (mem_of_getLast? he))
  have hnr : r.head? ≠ some vma := fun he => hvma (mem_append_right _ (mem_of_head? he))
  have hne : ∀ y ∈ l ++ r, y ≠ vma := fun y hy he => hvma (he ▸ hy)
  have hlen := h.length_le
  refine ⟨h.links.insert hvma (by simp [hnr]) (by simp [hnl]) (fun y hy => by simp [hne y hy])
    fun y hy => by simp [hne y hy], ?_, ?_, ?_, fun p hp => ?_, ?_, fun p hp => ?_⟩
  · simp only [linkVma_list, h.head]
    cases l with
    | nil => simp
    | cons z zs => simp
  · simp only [linkVma_list, h.tail]
    cases r with
    | nil => simp
    | cons z zs => simp [getLast?_append, getLast?_cons_cons]
  · simp only [linkVma_list, h.count]
    have hlimit : walkLimit < 2 ^ 32 - 1 := by decide
    rw [incr32_of_lt (by omega)]
    simp only [length_append, length_cons]
    omega
  · rw [(linkVma_fields _ _ _ _ _).1]
    rcases mem_cons.mp (perm_middle.mem_iff.mp hp) with rfl | hp
    · exact hval
    · exact h.valid p hp
  · simp only [linkVma_fields]
    obtain ⟨hsl, hsr, hcross⟩ := pairwise_append.mp h.sorted
    refine pairwise_append.mpr ⟨hsl, pairwise_cons.mpr ⟨hr, hsr⟩, fun p hp q hq => ?_⟩
    rcases mem_cons.mp hq with rfl | hq
    · exact hl p hp
    · exact hcross p hp q hq
  rcases mem_cons.mp (perm_middle.mem_iff.mp hp) with rfl | hp
  · exact hheap
  · exact h.heap p hp

/-- `vma_destroy` of a node of the list. -/
theorem destroy (h : VmaInv s xs) (hvma : vma ∈ xs) : VmaInv (vmaDestroy s vma) (xs.erase vma) := by
  rw [vmaDestroy_eq (h.links.prev_ne_self hvma)]
  have hsub : ∀ {p}, p ∈ xs.erase vma → p ∈ xs := mem_of_mem_erase
  refine ⟨h.links.remove hvma (fun y _ _ => by simp) (fun y _ _ => by simp), ?_, ?_, ?_,
    fun p hp => ?_, ?_, fun p hp => h.heap p (hsub hp)⟩
  · rw [h.links.head?_erase hvma, ← h.head]
    simp
  · rw [h.links.getLast?_erase hvma, ← h.tail]
    simp
  · obtain ⟨n, hn⟩ : ∃ n, xs.length = n + 1 :=
      Nat.exists_eq_succ_of_ne_zero (length_pos_of_mem hvma).ne'
    simp [h.count, length_erase_of_mem hvma, hn, decr32_succ]
  · simpa using h.valid p (hsub hp)
  · simpa using h.sorted.sublist erase_sublist

/-- `vma_insert` of a node with a valid area that overlaps none of the list. -/
theorem insert (h : VmaInv s xs) (hvma : vma ∉ xs)
    (hheap : kheapStart ≤ vma ∧ vma < kheapEnd) (hval : (s.area vma).Valid)
    (hfree : ∀ p ∈ xs, ¬ ((s.area vma).start < (s.area p).stop ∧
      (s.area p).start < (s.area vma).stop)) :
    ∃ s' l r, vmaInsert s vma = some s' ∧ xs = l ++ r ∧ VmaInv s' (l ++ vma :: r) ∧
      ∀ q, s'.area q = s.area q := by
  set cond : Nat → Bool := fun c => decide ((s.area c).start < (s.area vma).start) with hcond
  have hsplit : xs.takeWhile cond ++ xs.dropWhile cond = xs := takeWhile_append_dropWhile
  obtain ⟨hl, hr⟩ := h.insertion_sorted hval.nonempty hfree
  refine ⟨linkVma s vma (xs.takeWhile cond).getLast? (xs.dropWhile cond).head?, xs.takeWhile cond,
    xs.dropWhile cond, ?_, hsplit.symm, ?_, fun q => (linkVma_fields _ _ _ _ _).1⟩
  · have hwalk := h.links.links.walkWhile_eq cond none h.length_le
    rw [← h.head, or_none] at hwalk
    exact congrArg (Option.map _) hwalk
  · exact VmaInv.link (by rwa [hsplit]) (by rwa [hsplit]) hheap hval hl hr

/-- `vma_create` returns `NULL` and changes nothing, or inserts the rounded area. -/
theorem create (h : VmaInv s xs) (start stop flags prot : Nat) {alloc}
    (halloc : ∀ p, alloc = some p → p ∉ xs ∧ kheapStart ≤ p ∧ p < kheapEnd) :
    vmaCreate s start stop flags prot alloc = some (none, s) ∨
      ∃ vma s' l r, vmaCreate s start stop flags prot alloc = some (some vma, s') ∧
        alloc = some vma ∧ xs = l ++ r ∧ VmaInv s' (l ++ vma :: r) ∧
        s'.area vma = ⟨alignDown start pageSize, alignUp stop pageSize, flags, prot, none, 0⟩ ∧
        ∀ q ∈ xs, s'.area q = s.area q := by
  unfold vmaCreate
  by_cases hrng : alignUp stop pageSize ≤ alignDown start pageSize
  · exact .inl (by simp [hrng])
  rw [if_neg hrng, h.vmaOverlaps_eq]
  by_cases hover : ∃ p ∈ xs, alignDown start pageSize < (s.area p).stop ∧
      (s.area p).start < alignUp stop pageSize
  · exact .inl (by simp [hover])
  cases alloc with
  | none => exact .inl (by simp)
  | some vma =>
    obtain ⟨hvma, hheap⟩ := halloc vma rfl
    let a : Vma :=
      ⟨alignDown start pageSize, alignUp stop pageSize, flags, prot, none, none, none, 0⟩
    have hframe := h.frame hvma fun _ => a
    have harea : (s.modifyVma vma fun _ => a).area vma = a.area := by simp [VmaState.area]
    have hsame : ∀ q ∈ xs, (s.modifyVma vma fun _ => a).area q = s.area q := by
      intro q hq
      have hne : q ≠ vma := fun he => hvma (he ▸ hq)
      simp [VmaState.area, hne]
    have hval : a.area.Valid := by
      refine ⟨?_, ?_, not_le.mp hrng⟩
      · exact ⟨_, (alignDown_pageSize start).trans (mul_comm _ _)⟩
      · exact ⟨_, (alignUp_pageSize stop).trans (mul_comm _ _)⟩
    obtain ⟨s', l, r, hins, hxs, hinv, hareas⟩ := hframe.insert hvma hheap (harea ▸ hval)
      fun p hp hboth => by
        rw [harea, hsame p hp] at hboth
        exact hover ⟨p, hp, hboth⟩
    refine .inr ⟨vma, s', l, r, ?_, rfl, hxs, hinv, (hareas vma).trans harea,
      fun q hq => (hareas q).trans (hsame q hq)⟩
    simp [hover, hins, a]

end VmaInv

end Kurios.Areas
