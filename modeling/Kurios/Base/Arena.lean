import Mathlib

/-!
Arenas of power-of-two blocks: what a buddy allocator is for.

A `Block` is an interval of `2 ^ order` consecutive frames; an aligned one starts
at a multiple of its size. An aligned block and its buddy, the block whose first
frame differs in bit `order`, are the two halves of an aligned block one order
up (`Block.frames_parent`).

An `Arena` is a finite set of aligned blocks, pairwise apart, split into free and
live ones. The four moves of a buddy allocator keep it an arena and never change
the set of frames it covers: `take` and `release` move a block between the two
sides, `split` cuts a live block and frees its upper half, `merge` joins a live
block with its free buddy. Counting is one lemma, `freePages_add_livePages`: the
two sides add up to the number of frames covered.
-/

namespace Kurios.Base

open Finset

variable {f : Nat} {α : Type*}

/-- `2 ^ order` frames from `base` on. -/
structure Block where
  base : Nat
  order : Nat
deriving DecidableEq, Repr

namespace Block

section

variable (b : Block)

def size : Nat := 2 ^ b.order

def frames : Finset Nat := Finset.Ico b.base (b.base + b.size)

def Aligned : Prop := b.size ∣ b.base

/-- The block of the same order whose base differs in bit `order`. -/
def buddy : Block := ⟨b.base ^^^ b.size, b.order⟩

/-- The block one order up that a block and its buddy make up. -/
def parent : Block := ⟨min b.base b.buddy.base, b.order + 1⟩

end

/-- The upper half of the block of order `order + 1` at `base`. -/
def upper (base order : Nat) : Block := ⟨base + 2 ^ order, order⟩

theorem size_pos (b : Block) : 0 < b.size := Nat.two_pow_pos _

theorem size_eq (b : Block) : b.size = 1 <<< b.order := by simp [size, Nat.shiftLeft_eq]

@[simp] theorem mem_frames {b : Block} {f : Nat} :
    f ∈ b.frames ↔ b.base ≤ f ∧ f < b.base + b.size := mem_Ico

@[simp] theorem card_frames (b : Block) : b.frames.card = b.size := by simp [frames]

theorem base_mem_frames (b : Block) : b.base ∈ b.frames := by
  have := b.size_pos
  simp; omega

/-- The base of the buddy lies one size above or one size below. -/
theorem buddy_base {b : Block} (h : b.Aligned) :
    (b.buddy.base = b.base + b.size ∧ 2 * b.size ∣ b.base) ∨
      (b.buddy.base + b.size = b.base ∧ 2 * b.size ∣ b.buddy.base) := by
  obtain ⟨q, hq⟩ := h
  have hbase : b.buddy.base = b.size * (q ^^^ 1) := by
    simp only [buddy, hq, size, mul_comm (2 ^ b.order), ← Nat.shiftLeft_eq]
    rw [Nat.shiftLeft_xor_distrib]
    simp [Nat.shiftLeft_eq]
  rcases Nat.even_or_odd q with he | ho
  · left
    rw [Nat.xor_one_of_even he] at hbase
    obtain ⟨k, rfl⟩ := he
    exact ⟨by rw [hbase, hq]; ring, ⟨k, by rw [hq]; ring⟩⟩
  right
  rw [Nat.xor_one_of_odd ho] at hbase
  obtain ⟨k, rfl⟩ := ho
  rw [Nat.add_sub_cancel] at hbase
  exact ⟨by rw [hbase, hq]; ring, ⟨k, by rw [hbase]; ring⟩⟩

theorem parent_aligned {b : Block} (h : b.Aligned) : b.parent.Aligned := by
  have hsize : b.parent.size = 2 * b.size := by simp [parent, size, pow_succ, mul_comm]
  unfold Aligned
  rw [hsize]
  rcases buddy_base h with ⟨hb, hdvd⟩ | ⟨hb, hdvd⟩
  · rwa [parent, Nat.min_eq_left (by omega)]
  · rwa [parent, Nat.min_eq_right (by omega)]

theorem buddy_ne {b : Block} (h : b.Aligned) : b.buddy ≠ b := by
  intro he
  have := congrArg Block.base he
  have hpos := b.size_pos
  rcases buddy_base h with ⟨hb, -⟩ | ⟨hb, -⟩ <;> omega

/-- A range of frames whose length is a multiple of the parent's size holds both
buddies or neither. -/
theorem buddy_base_lt {b : Block} {n : Nat} (h : b.Aligned) (hn : 2 ^ (b.order + 1) ∣ n)
    (hb : b.base < n) : b.buddy.base < n := by
  have htwo : 2 ^ (b.order + 1) = 2 * b.size := by rw [size, pow_succ, mul_comm]
  rw [htwo] at hn
  rcases buddy_base h with ⟨hbud, hdvd⟩ | ⟨hbud, -⟩
  · have hstep : b.base + 2 * b.size ≤ n := by
      obtain ⟨i, hi⟩ := hdvd
      obtain ⟨j, rfl⟩ := hn
      rw [hi] at hb ⊢
      have hij : i + 1 ≤ j := Nat.lt_of_mul_lt_mul_left hb
      calc 2 * b.size * i + 2 * b.size = 2 * b.size * (i + 1) := by ring
        _ ≤ 2 * b.size * j := Nat.mul_le_mul_left _ hij
    omega
  · omega

/-- A block and its buddy are the two halves of their parent. -/
theorem frames_parent {b : Block} (h : b.Aligned) :
    b.parent.frames = b.frames ∪ b.buddy.frames := by
  have hsize : b.parent.size = 2 * b.size := by simp [parent, size, pow_succ, mul_comm]
  have hbud : b.buddy.size = b.size := rfl
  have hpar : b.parent.base = min b.base b.buddy.base := rfl
  ext f
  simp only [mem_frames, mem_union, hsize, hbud, hpar]
  rcases buddy_base h with ⟨hb, -⟩ | ⟨hb, -⟩ <;> omega

/-- A block of order `k + 1` is its lower half and its upper half. -/
theorem frames_halves (base order : Nat) :
    (⟨base, order + 1⟩ : Block).frames =
      (⟨base, order⟩ : Block).frames ∪ (upper base order).frames := by
  ext f
  simp only [mem_frames, mem_union, size, upper, pow_succ]
  omega

end Block

/-- The blocks of `s` are pairwise apart. -/
def Apart (s : Finset Block) : Prop := ∀ b ∈ s, ∀ c ∈ s, b ≠ c → Disjoint b.frames c.frames

variable {s : Finset Block}

theorem Apart.subset {t} (h : Apart t) (hsub : s ⊆ t) : Apart s :=
  fun b hb c hc => h b (hsub hb) c (hsub hc)

theorem Apart.insert {b} (h : Apart s) (hb : ∀ c ∈ s, c ≠ b → Disjoint b.frames c.frames) :
    Apart (insert b s) := by
  intro c hc d hd hne
  rcases mem_insert.mp hc with rfl | hcs
  · exact hb d ((mem_insert.mp hd).resolve_left hne.symm) hne.symm
  · rcases mem_insert.mp hd with rfl | hds
    · exact (hb c hcs hne).symm
    · exact h c hcs d hds hne

/-- Two blocks of an apart set that share a frame are the same block. -/
theorem Apart.eq_of_mem_frames {b c} (h : Apart s) (hb : b ∈ s) (hc : c ∈ s)
    (hfb : f ∈ b.frames) (hfc : f ∈ c.frames) : b = c := by
  by_contra hne
  exact disjoint_left.mp (h b hb c hc hne) hfb hfc

/-- Part of a block of an apart set is no block of the set, unless it is that block. -/
theorem Apart.not_mem_of_subset {b c} (h : Apart s) (hb : b ∈ s) (hne : c ≠ b)
    (hsub : c.frames ⊆ b.frames) : c ∉ s := fun hc =>
  hne (h.eq_of_mem_frames hc hb c.base_mem_frames (hsub c.base_mem_frames))

theorem Apart.card_biUnion (h : Apart s) : (s.biUnion Block.frames).card = ∑ b ∈ s, b.size := by
  rw [Finset.card_biUnion h]
  simp

theorem mem_foldr_union [DecidableEq α] {sets : List (Finset α)} {a : α} :
    a ∈ sets.foldr (· ∪ ·) ∅ ↔ ∃ s ∈ sets, a ∈ s := by
  induction sets with
  | nil => simp
  | cons s l ih => simp [ih]

theorem card_foldr_union_le [DecidableEq α] (sets : List (Finset α)) :
    (sets.foldr (· ∪ ·) ∅).card ≤ (sets.map card).sum := by
  induction sets with
  | nil => simp
  | cons s l ih => exact (card_union_le _ _).trans (Nat.add_le_add_left ih _)

/-- Finite sets are pairwise disjoint exactly when their sizes add up to the size
of their union. -/
theorem pairwise_disjoint_iff_card_union [DecidableEq α] (sets : List (Finset α)) :
    (sets.Pairwise Disjoint) ↔ (sets.map card).sum ≤ (sets.foldr (· ∪ ·) ∅).card := by
  have hmem : ∀ (l : List (Finset α)) (s : Finset α),
      Disjoint s (l.foldr (· ∪ ·) ∅) ↔ ∀ t ∈ l, Disjoint s t := by
    intro l s
    simp only [disjoint_left, mem_foldr_union, not_exists, not_and]
    exact ⟨fun h t ht a ha => h ha t ht, fun h a ha t ht => h t ht ha⟩
  induction sets with
  | nil => simp
  | cons s l ih =>
    rw [List.pairwise_cons, ← hmem, ← card_union_eq_card_add_card]
    simp only [List.foldr_cons, List.map_cons, List.sum_cons, ih]
    have hunion := card_union_le s (l.foldr (· ∪ ·) ∅)
    have hrest := card_foldr_union_le l
    constructor
    · omega
    · intro h
      constructor <;> omega

/-- A finite set of aligned blocks, pairwise apart, each free or live. -/
structure Arena where
  free : Finset Block
  live : Finset Block
  aligned : ∀ b ∈ free ∪ live, b.Aligned
  apart : Apart (free ∪ live)
  separate : Disjoint free live

namespace Arena

variable (A : Arena)

/-- The frames the arena covers. -/
def frames : Finset Nat := (A.free ∪ A.live).biUnion Block.frames

def freeFrames : Finset Nat := A.free.biUnion Block.frames

def freePages : Nat := ∑ b ∈ A.free, b.size

def livePages : Nat := ∑ b ∈ A.live, b.size

/-- The arena of no live blocks. -/
def ofFree (free : Finset Block) (aligned : ∀ b ∈ free, b.Aligned) (apart : Apart free) : Arena :=
  ⟨free, ∅, by simpa using aligned, by simpa using apart, disjoint_empty_right _⟩

variable {A}

theorem mem_frames : f ∈ A.frames ↔ ∃ b ∈ A.free ∪ A.live, f ∈ b.frames := mem_biUnion

theorem mem_freeFrames : f ∈ A.freeFrames ↔ ∃ b ∈ A.free, f ∈ b.frames := mem_biUnion

theorem live_aligned {b} (h : b ∈ A.live) : b.Aligned := A.aligned b (mem_union_right _ h)

theorem not_live_of_free {b} (h : b ∈ A.free) : b ∉ A.live := disjoint_left.mp A.separate h

/-- No frame is both in a free and in a live block. -/
theorem not_free_of_live {b} (hb : b ∈ A.live) (hf : f ∈ b.frames) : f ∉ A.freeFrames := by
  intro hfree
  obtain ⟨c, hc, hfc⟩ := mem_freeFrames.mp hfree
  obtain rfl := A.apart.eq_of_mem_frames (mem_union_left _ hc) (mem_union_right _ hb) hfc hf
  exact not_live_of_free hc hb

theorem free_base_ne {b c} (hb : b ∈ A.free) (hc : c ∈ A.live) (hf : f ∈ c.frames) :
    b.base ≠ f := by
  rintro rfl
  exact not_free_of_live hc hf (mem_freeFrames.mpr ⟨b, hb, b.base_mem_frames⟩)

/-- A frame of the arena is free when no live block holds it. -/
theorem mem_freeFrames_iff : f ∈ A.freeFrames ↔ f ∈ A.frames ∧ ∀ b ∈ A.live, f ∉ b.frames := by
  constructor
  · intro hf
    obtain ⟨b, hb, hfb⟩ := mem_freeFrames.mp hf
    exact ⟨mem_frames.mpr ⟨b, mem_union_left _ hb, hfb⟩, fun c hc hfc => not_free_of_live hc hfc hf⟩
  rintro ⟨hf, hlive⟩
  obtain ⟨b, hb, hfb⟩ := mem_frames.mp hf
  rcases mem_union.mp hb with hb | hb
  · exact mem_freeFrames.mpr ⟨b, hb, hfb⟩
  · exact absurd hfb (hlive b hb)

theorem live_frames_subset {b} (hb : b ∈ A.live) : b.frames ⊆ A.frames := fun _ hf =>
  mem_frames.mpr ⟨b, mem_union_right _ hb, hf⟩

theorem freePages_add_livePages : A.freePages + A.livePages = A.frames.card := by
  rw [frames, A.apart.card_biUnion, sum_union A.separate, freePages, livePages]

theorem freePages_eq_card : A.freePages = A.freeFrames.card :=
  (A.apart.subset subset_union_left).card_biUnion.symm

/-- A block more on the live side is that many pages less on the free side. -/
theorem freePages_of_live_insert {A' : Arena} {b : Block} (hb : b ∉ A.live)
    (hlive : A'.live = insert b A.live) (hfrs : A'.frames = A.frames) :
    A'.freePages + b.size = A.freePages := by
  have hsum := A.freePages_add_livePages
  have hsum' := A'.freePages_add_livePages
  have hpages : A'.livePages = b.size + A.livePages := by
    rw [livePages, hlive, sum_insert hb, livePages]
  rw [hfrs] at hsum'
  omega

/-! ### Moving a block between the two sides -/

section Move

variable {b : Block}

theorem take_union (hb : b ∈ A.free) : A.free.erase b ∪ insert b A.live = A.free ∪ A.live := by
  rw [union_insert, ← insert_union, insert_erase hb]

theorem release_union (hb : b ∈ A.live) : insert b A.free ∪ A.live.erase b = A.free ∪ A.live := by
  rw [insert_union, ← union_insert, insert_erase hb]

/-- A free block becomes live. -/
def take (A : Arena) (b : Block) (hb : b ∈ A.free) : Arena where
  free := A.free.erase b
  live := insert b A.live
  aligned := by rw [take_union hb]; exact A.aligned
  apart := by rw [take_union hb]; exact A.apart
  separate := by
    rw [disjoint_insert_right]
    exact ⟨notMem_erase b _, A.separate.mono_left (erase_subset _ _)⟩

/-- A live block becomes free. -/
def release (A : Arena) (b : Block) (hb : b ∈ A.live) : Arena where
  free := insert b A.free
  live := A.live.erase b
  aligned := by rw [release_union hb]; exact A.aligned
  apart := by rw [release_union hb]; exact A.apart
  separate := by
    rw [disjoint_insert_left]
    exact ⟨notMem_erase b _, A.separate.mono_right (erase_subset _ _)⟩

theorem frames_take (hb : b ∈ A.free) : (A.take b hb).frames = A.frames :=
  congrArg (Finset.biUnion · Block.frames) (take_union hb)

theorem frames_release (hb : b ∈ A.live) : (A.release b hb).frames = A.frames :=
  congrArg (Finset.biUnion · Block.frames) (release_union hb)

end Move

/-! ### Cutting a live block -/

section Split

variable {base order : Nat}

section

variable (hb : ⟨base, order + 1⟩ ∈ A.live)
include hb

theorem split_union :
    insert (Block.upper base order) A.free ∪ insert ⟨base, order⟩ (A.live.erase ⟨base, order + 1⟩) =
      insert (Block.upper base order)
        (insert ⟨base, order⟩ ((A.free ∪ A.live).erase ⟨base, order + 1⟩)) := by
  have hfree : ⟨base, order + 1⟩ ∉ A.free := fun h => not_live_of_free h hb
  rw [insert_union, union_insert, erase_union_distrib, erase_eq_of_notMem hfree]

/-- The halves of a live block are apart from every other block. -/
theorem halves_apart : ∀ c ∈ (A.free ∪ A.live).erase ⟨base, order + 1⟩,
      Disjoint (⟨base, order⟩ : Block).frames c.frames ∧
        Disjoint (Block.upper base order).frames c.frames := by
  intro c hc
  obtain ⟨hne, hc⟩ := mem_erase.mp hc
  have hd := A.apart _ (mem_union_right _ hb) c hc hne.symm
  rwa [Block.frames_halves, disjoint_union_left] at hd

/-- Neither half of a live block is a block of the arena. -/
theorem halves_not_mem :
    (⟨base, order⟩ : Block) ∉ A.free ∪ A.live ∧ Block.upper base order ∉ A.free ∪ A.live := by
  have hmem := mem_union_right A.free hb
  constructor
  · refine A.apart.not_mem_of_subset hmem (by simp) ?_
    rw [Block.frames_halves]
    exact subset_union_left
  · refine A.apart.not_mem_of_subset hmem (by simp [Block.upper]) ?_
    rw [Block.frames_halves]
    exact subset_union_right

/-- A live block is cut in two; the upper half is freed. -/
def split (A : Arena) (base order : Nat) (hb : ⟨base, order + 1⟩ ∈ A.live) : Arena where
  free := insert (Block.upper base order) A.free
  live := insert ⟨base, order⟩ (A.live.erase ⟨base, order + 1⟩)
  aligned := by
    rw [split_union hb]
    intro c hc
    have hal : (⟨base, order⟩ : Block).Aligned :=
      dvd_trans (pow_dvd_pow 2 (Nat.le_succ order)) (live_aligned hb)
    rcases mem_insert.mp hc with rfl | hc
    · exact dvd_add hal (dvd_refl _)
    · rcases mem_insert.mp hc with rfl | hc
      · exact hal
      · exact A.aligned c (mem_of_mem_erase hc)
  apart := by
    rw [split_union hb]
    have hrest := A.apart.subset (erase_subset ⟨base, order + 1⟩ _)
    refine (hrest.insert fun c hc _ => (halves_apart hb c hc).1).insert fun c hc _ => ?_
    rcases mem_insert.mp hc with rfl | hc
    · rw [disjoint_left]
      intro f hu hf
      simp only [Block.mem_frames, Block.size, Block.upper] at hf hu
      omega
    · exact (halves_apart hb c hc).2
  separate := by
    obtain ⟨hlower, hupper⟩ := halves_not_mem hb
    rw [mem_union, not_or] at hlower hupper
    have hne : Block.upper base order ≠ ⟨base, order⟩ := by simp [Block.upper]
    rw [disjoint_insert_left, disjoint_insert_right, mem_insert]
    exact ⟨fun h => h.elim hne fun h => hupper.2 (mem_of_mem_erase h),
      hlower.1, A.separate.mono_right (erase_subset _ _)⟩

theorem frames_split : (A.split base order hb).frames = A.frames := by
  have hmem := mem_union_right A.free hb
  change Finset.biUnion (_ ∪ _) _ = _
  rw [split, split_union hb, biUnion_insert, biUnion_insert, ← union_assoc,
    union_comm (Block.upper base order).frames, ← Block.frames_halves,
    ← biUnion_insert, insert_erase hmem, frames]

end

end Split

/-! ### Joining a live block with its free buddy -/

section Merge

variable {b : Block}

theorem merge_union (hb : b ∈ A.live) (hfree : b.buddy ∈ A.free) :
    A.free.erase b.buddy ∪ insert b.parent (A.live.erase b) =
      insert b.parent (((A.free ∪ A.live).erase b.buddy).erase b) := by
  have hnf : b ∉ A.free.erase b.buddy := fun h => not_live_of_free (mem_of_mem_erase h) hb
  have hnl : b.buddy ∉ A.live := not_live_of_free hfree
  rw [union_insert, erase_union_distrib, erase_union_distrib,
    erase_eq_of_notMem hnf, erase_eq_of_notMem hnl]

/-- The parent of a live block is no block of the arena. -/
theorem parent_not_mem (hb : b ∈ A.live) : b.parent ∉ A.free ∪ A.live := by
  intro hmem
  have hpar : b.base ∈ b.parent.frames := by
    rw [Block.frames_parent (live_aligned hb)]
    exact mem_union_left _ b.base_mem_frames
  have heq := A.apart.eq_of_mem_frames hmem (mem_union_right _ hb) hpar b.base_mem_frames
  have := congrArg Block.order heq
  simp [Block.parent] at this

/-- A live block and its free buddy become one live block. -/
def merge (A : Arena) (b : Block) (hb : b ∈ A.live) (hfree : b.buddy ∈ A.free) : Arena where
  free := A.free.erase b.buddy
  live := insert b.parent (A.live.erase b)
  aligned := by
    rw [merge_union hb hfree]
    intro c hc
    rcases mem_insert.mp hc with rfl | hc
    · exact Block.parent_aligned (live_aligned hb)
    · exact A.aligned c (mem_of_mem_erase (mem_of_mem_erase hc))
  apart := by
    rw [merge_union hb hfree]
    have hrest := (A.apart.subset (erase_subset b.buddy _)).subset (erase_subset b _)
    refine hrest.insert fun c hc _ => ?_
    obtain ⟨hne, hc⟩ := mem_erase.mp hc
    obtain ⟨hne', hc⟩ := mem_erase.mp hc
    rw [Block.frames_parent (live_aligned hb), disjoint_union_left]
    exact ⟨A.apart b (mem_union_right _ hb) c hc hne.symm,
      A.apart _ (mem_union_left _ hfree) c hc hne'.symm⟩
  separate := by
    rw [disjoint_insert_right]
    exact ⟨fun hmem => parent_not_mem hb (mem_union_left _ (mem_of_mem_erase hmem)),
      (A.separate.mono_left (erase_subset _ _)).mono_right (erase_subset _ _)⟩

theorem frames_merge (hb : b ∈ A.live) (hfree : b.buddy ∈ A.free) :
    (A.merge b hb hfree).frames = A.frames := by
  have hmem := mem_union_right A.free hb
  have hbud := mem_union_left A.live hfree
  have hb' : b ∈ (A.free ∪ A.live).erase b.buddy :=
    mem_erase.mpr ⟨(Block.buddy_ne (live_aligned hb)).symm, hmem⟩
  change Finset.biUnion (_ ∪ _) _ = _
  rw [merge, merge_union hb hfree, biUnion_insert, Block.frames_parent (live_aligned hb),
    union_comm b.frames, union_assoc, ← biUnion_insert,
    insert_erase hb', ← biUnion_insert, insert_erase hbud, frames]

end Merge

end Arena

end Kurios.Base
