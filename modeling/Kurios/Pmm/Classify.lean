import Kurios.Pmm.Boot
import Kurios.Pmm.Buddy

/-!
What the three passes of `pmm_init` compute.

The flag passes are summarised by `Flagged`: a loop over a range writes one flag
word to each descriptor of the range and changes nothing else the later passes
read. `marked_reserved` is their sum: a frame is left unreserved exactly when some
usable region holds it and none of the kernel image, the page array and the initrd
does (`Candidate`).

The third pass reads only the reserved flags, which it does not change, so it
pushes a list of blocks that is fixed before it starts (`bootBlocks`). The blocks
of one region are aligned, in increasing order, and cover exactly the candidate
frames of the region (`regionBlocks_spec`).
-/

namespace Kurios.Pmm

open Base Option Finset Block

variable {flags : PageFlags} {m' m : MemInfo} {body : Nat → MemInfo → MemInfo}
  {endPfn f k pfn total : Nat} {R : Nat → Prop} {r : Nat × Nat} {b : Block} {free : Finset Block}

/-- `f` is one of the frames `[r.1, r.2)`. -/
def InRange (r : Nat × Nat) (f : Nat) : Prop := r.1 ≤ f ∧ f < r.2
deriving Decidable

/-! ### The flag passes -/

/-- The flag word of the frames of `r` is set to `flags`. -/
structure Flagged (r : Nat × Nat) (flags : PageFlags) (m m' : MemInfo) : Prop where
  pages : ∀ q, m'.pages q = if InRange r q then { m.pages q with flags := flags } else m.pages q
  totalPages : m'.totalPages = m.totalPages
  freePages : m'.freePages = m.freePages
  zone : m'.zone = m.zone

theorem inRange_single (i q : Nat) : InRange (i, i + 1) q ↔ q = i := by
  simp only [InRange]
  omega

theorem flagged_single {i}
    (hpages : m'.pages = (m.modifyPage i fun p => { p with flags := flags }).pages)
    (htotal : m'.totalPages = m.totalPages) (hfree : m'.freePages = m.freePages)
    (hzone : m'.zone = m.zone) : Flagged (i, i + 1) flags m m' := by
  refine ⟨fun q => ?_, htotal, hfree, hzone⟩
  rw [hpages, MemInfo.modifyPage_pages]
  by_cases hq : q = i
  · simp [hq, InRange]
  · rw [if_neg hq, if_neg (mt (inRange_single i q).mp hq)]

theorem flagged_forRange (hbody : ∀ i m, Flagged (i, i + 1) flags m (body i m)) (r : Nat × Nat)
    (m : MemInfo) : Flagged r flags m (forRange r.1 r.2 body m) := by
  rcases lt_or_ge r.2 r.1 with hlt | hle
  · rw [forRange_of_le (by omega)]
    refine ⟨fun q => (if_neg ?_).symm, rfl, rfl, rfl⟩
    rintro ⟨hlo, hhi⟩
    omega
  refine forRange_inv (fun i (s : MemInfo) => Flagged (r.1, i) flags m s) hle ?_ ?_
  · exact ⟨fun q => (if_neg (by simp only [InRange]; omega)).symm, rfl, rfl, rfl⟩
  intro i s hlo hhi hs
  have hb := hbody i s
  refine ⟨fun q => ?_, hb.totalPages.trans hs.totalPages, hb.freePages.trans hs.freePages,
    hb.zone.trans hs.zone⟩
  rw [hb.pages, hs.pages]
  by_cases hq : q = i
  · subst hq
    simp [InRange, hlo]
  · rw [if_neg (mt (inRange_single i q).mp hq)]
    exact if_congr (by simp only [InRange]; omega) rfl rfl

/-- The state between two flag passes: every descriptor of the page array is off
the lists, and reserved as `R` says. -/
structure Marking (total : Nat) (R : Nat → Prop) (m : MemInfo) : Prop where
  totalPages : m.totalPages = total
  unlisted : ∀ q < total, (m.pages q).flags.buddy = false
  reserved : ∀ q < total, ((m.pages q).flags.reserved = true ↔ R q)
  freeLists : ∀ k, m.zone.freeLists k = none
  freeCount : ∀ k, m.zone.freeCount k = 0
  zonePages : m.zone.freePages = 0
  infoPages : m.freePages = 0

/-- A loop over the descriptors of `r` that stays in the page array. -/
theorem Marking.overFrames (h : Marking total R m) (hrun : overFrames r body m = some m')
    (hbody : ∀ i m, Flagged (i, i + 1) flags m (body i m)) (hbuddy : flags.buddy = false) :
    (r.1 < r.2 → r.2 ≤ total) ∧
      Marking total (fun q => if InRange r q then flags.reserved = true else R q) m' := by
  unfold Pmm.overFrames at hrun
  split at hrun
  · cases hrun
  next hin =>
  obtain rfl : forRange r.1 r.2 body m = m' := by simpa using hrun
  have hf := flagged_forRange hbody r m
  refine ⟨fun hlt => ?_, ?_⟩
  · have := h.totalPages
    omega
  refine ⟨hf.totalPages.trans h.totalPages, fun q hq => ?_, fun q hq => ?_, ?_, ?_, ?_, ?_⟩
  · rw [hf.pages]
    split
    · exact hbuddy
    · exact h.unlisted q hq
  · rw [hf.pages]
    split
    · rfl
    · exact h.reserved q hq
  · rw [hf.zone]
    exact h.freeLists
  · rw [hf.zone]
    exact h.freeCount
  · rw [hf.zone, h.zonePages]
  · rw [hf.freePages, h.infoPages]

theorem Marking.congr {R'} (h : Marking total R m) (hR : ∀ q, R q ↔ R' q) : Marking total R' m :=
  { h with reserved := fun q hq => (h.reserved q hq).trans (hR q) }

theorem resetPages_marking (boot : BootInfo) (memory : Nat → Page) :
    Marking (bootTotalPages boot) (fun _ => True) (resetPages boot memory) := by
  have heq : resetPages boot memory = _ :=
    (congrArg (fun body => forRange 0 (bootTotalPages boot) body _)
      (funext fun i => funext fun m => by rw [zero_add])).trans
      (MemInfo.forRange_modifyPage _ (fun _ => { flags := { reserved := true } }) 0 0 _)
  rw [heq]
  refine ⟨rfl, fun q hq => ?_, fun q hq => ?_, fun _ => rfl, fun _ => rfl, rfl, rfl⟩ <;> simp [hq]

/-- The second pass reserves what no region of the list holds. -/
theorem Marking.usable {rs : List (Nat × Nat)} (h : Marking total R m)
    (hrun : rs.foldlM (fun m r => Pmm.overFrames r clearFlags m) m = some m') :
    (∀ r ∈ rs, r.1 < r.2 → r.2 ≤ total) ∧
      Marking total (fun q => R q ∧ ∀ r ∈ rs, ¬ InRange r q) m' := by
  induction rs generalizing R m with
  | nil =>
    obtain rfl : m = m' := by simpa using hrun
    exact ⟨by simp, h.congr (by simp)⟩
  | cons r rs ih =>
    simp only [List.foldlM_cons, bind_eq_bind, bind_eq_some_iff] at hrun
    obtain ⟨m1, hfirst, hrest⟩ := hrun
    obtain ⟨hin, hm1⟩ := h.overFrames hfirst (fun i m => flagged_single rfl rfl rfl rfl) rfl
    obtain ⟨hins, hm'⟩ := ih hm1 hrest
    refine ⟨List.forall_mem_cons.mpr ⟨hin, hins⟩, hm'.congr fun q => ?_⟩
    by_cases hq : InRange r q <;> simp [hq]

/-- A frame the third pass may hand to the free lists: some usable region holds it
and nothing marked afterwards does. -/
def Candidate (boot : BootInfo) (kernelPhysEnd : BitVec 64) (f : Nat) : Prop :=
  (∃ r ∈ boot.memoryMap.filterMap usableRegion, InRange r f) ∧
    ¬ InRange (kernelRange kernelPhysEnd) f ∧ ¬ InRange (pageArrayRange boot kernelPhysEnd) f ∧
    ¬ InRange (initrdRange boot) f

/-- The flag passes of `pmm_init`. -/
theorem pmmInit_marking {boot : BootInfo} {kernelPhysEnd : BitVec 64} {memory : Nat → Page}
    (hinit : pmmInit boot kernelPhysEnd memory = some m) :
    ∃ m1, Marking (bootTotalPages boot) (fun q => ¬ Candidate boot kernelPhysEnd q) m1 ∧
      (∀ r ∈ boot.memoryMap.filterMap usableRegion, r.1 < r.2 → r.2 ≤ bootTotalPages boot) ∧
      m = countReserved (addUsable boot.memoryMap m1) := by
  simp only [pmmInit, bind_eq_bind, bind_eq_some_iff, Option.pure_def, some.injEq] at hinit
  obtain ⟨m1, husable, m2, hkernel, m3, harray, m4, hinitrd, rfl⟩ := hinit
  obtain ⟨hin, h1⟩ := (resetPages_marking boot memory).usable husable
  obtain ⟨-, h2⟩ := h1.overFrames hkernel (fun i m => flagged_single rfl rfl rfl rfl) rfl
  obtain ⟨-, h3⟩ := h2.overFrames harray (fun i m => flagged_single rfl rfl rfl rfl) rfl
  obtain ⟨-, h4⟩ := h3.overFrames hinitrd (fun i m => flagged_single rfl rfl rfl rfl) rfl
  refine ⟨m4, h4.congr fun q => ?_, hin, rfl⟩
  unfold Candidate
  by_cases hk : InRange (kernelRange kernelPhysEnd) q
  · simp [hk]
  by_cases hp : InRange (pageArrayRange boot kernelPhysEnd) q
  · simp [hp]
  · by_cases hi : InRange (initrdRange boot) q
    · simp [hi]
    · simp [hk, hp, hi]

/-! ### The blocks of the third pass -/

/-- The state may gain list links but keeps its reserved flags. -/
def SameReserved (m m' : MemInfo) : Prop :=
  ∀ q, (m'.pages q).flags.reserved = (m.pages q).flags.reserved

theorem addFreeBlock_sameReserved (h : SameReserved m m') (p k : Nat) :
    SameReserved m (addFreeBlock m' p k) := by
  intro q
  rw [← h q]
  by_cases hq : q = p <;> simp [addFreeBlock, hq]

theorem largestOrder_congr (h : SameReserved m m') (pfn endPfn k : Nat) :
    largestOrder m' pfn endPfn k = largestOrder m pfn endPfn k := by
  induction k with
  | zero => rfl
  | succ k ih => simp [largestOrder, blockFits, h _, ih]

/-- The blocks the third pass cuts from the frames `[pfn, endPfn)`. -/
def regionBlocks (m : MemInfo) (endPfn : Nat) : (fuel pfn : Nat) → List Block
  | 0, _ => []
  | n + 1, pfn =>
    if pfn ≥ endPfn then [] else
    if (m.pages pfn).flags.reserved then regionBlocks m endPfn n (pfn + 1) else
    ⟨pfn, largestOrder m pfn endPfn maxOrder⟩ ::
      regionBlocks m endPfn n (pfn + (1 <<< largestOrder m pfn endPfn maxOrder))

/-- The third pass pushes a list of blocks that its own writes do not influence. -/
def pushBlocks (bs : List Block) (m : MemInfo) : MemInfo :=
  bs.foldl (fun m b => addFreeBlock m b.base b.order) m

theorem addRegion_eq (h : SameReserved m m') (endPfn n pfn : Nat) :
    addRegion endPfn n pfn m' = pushBlocks (regionBlocks m endPfn n pfn) m' := by
  induction n generalizing m' pfn with
  | zero => rfl
  | succ n ih =>
    simp only [addRegion, regionBlocks, h pfn, largestOrder_congr h]
    split
    · rfl
    · split
      · exact ih h (pfn + 1)
      · exact ih (addFreeBlock_sameReserved h _ _) _

/-- A block of candidate frames between `lo` and `hi`. -/
structure FitsIn (m : MemInfo) (lo hi : Nat) (b : Block) : Prop where
  aligned : b.Aligned
  order_le : b.order ≤ maxOrder
  lower : lo ≤ b.base
  upper : b.base + b.size ≤ hi
  unreserved : ∀ f ∈ b.frames, (m.pages f).flags.reserved = false

theorem FitsIn.mono {lo lo' hi} (h : FitsIn m lo hi b) (hlo : lo' ≤ lo) : FitsIn m lo' hi b :=
  { h with lower := hlo.trans h.lower }

theorem blockFits_fitsIn (h : blockFits m pfn endPfn k = true) (hk : k ≤ maxOrder) :
    FitsIn m pfn endPfn ⟨pfn, k⟩ := by
  have hsize := size_eq ⟨pfn, k⟩
  simp only [blockFits, Bool.and_eq_true, beq_iff_eq, decide_eq_true_eq, List.all_eq_true,
    List.mem_range, Bool.not_eq_true'] at h
  obtain ⟨⟨halign, hend⟩, hfree⟩ := h
  refine ⟨?_, hk, le_rfl, by rwa [hsize], fun f hf => ?_⟩
  · rw [Nat.shiftLeft_eq, one_mul, Nat.and_two_pow_sub_one_eq_mod] at halign
    exact Nat.dvd_of_mod_eq_zero halign
  rw [mem_frames, hsize] at hf
  obtain ⟨hlo, hhi⟩ : pfn ≤ f ∧ f < pfn + 1 <<< k := hf
  have hj := hfree (f - pfn) (by omega)
  rwa [Nat.add_sub_cancel' hlo] at hj

/-- The block the third pass picks at an unreserved frame. Order `0` is not
tested, and does not need to be. -/
theorem largestOrder_fitsIn (hlt : pfn < endPfn) (hfree : (m.pages pfn).flags.reserved = false)
    (hk : k ≤ maxOrder) : FitsIn m pfn endPfn ⟨pfn, largestOrder m pfn endPfn k⟩ := by
  induction k with
  | zero =>
    refine ⟨one_dvd _, zero_le, le_rfl, hlt, fun f hf => ?_⟩
    obtain rfl : f = pfn := by simpa [largestOrder, frames, size] using hf
    exact hfree
  | succ k ih =>
    unfold largestOrder
    split
    · next hfits => exact blockFits_fitsIn hfits hk
    · exact ih (by omega)

/-- The blocks of one region: aligned, in increasing order, and covering its
candidate frames. -/
theorem regionBlocks_spec (m : MemInfo) {n} (hn : endPfn - pfn ≤ n) :
    (∀ b ∈ regionBlocks m endPfn n pfn, FitsIn m pfn endPfn b) ∧
      (regionBlocks m endPfn n pfn).Pairwise (fun b c => b.base + b.size ≤ c.base) ∧
      ∀ f, pfn ≤ f → f < endPfn → (m.pages f).flags.reserved = false →
        ∃ b ∈ regionBlocks m endPfn n pfn, f ∈ b.frames := by
  induction n generalizing pfn with
  | zero => exact ⟨by simp [regionBlocks], by simp [regionBlocks], by omega⟩
  | succ n ih =>
    unfold regionBlocks
    by_cases hend : pfn ≥ endPfn
    · simp only [if_pos hend]
      exact ⟨by simp, by simp, by omega⟩
    rw [if_neg hend]
    by_cases hres : (m.pages pfn).flags.reserved = true
    · -- A reserved frame is skipped.
      rw [if_pos hres]
      obtain ⟨hfit, hsorted, hcover⟩ := @ih (pfn + 1) (by omega)
      refine ⟨fun b hb => (hfit b hb).mono (Nat.le_succ _), hsorted, fun f hlo hhi hf => ?_⟩
      have hne : f ≠ pfn := by
        rintro rfl
        rw [hres] at hf
        cases hf
      exact hcover f (by omega) hhi hf
    rw [if_neg hres]
    set b : Block := ⟨pfn, largestOrder m pfn endPfn maxOrder⟩
    have hpos := b.size_pos
    have hbfit : FitsIn m pfn endPfn b :=
      largestOrder_fitsIn (by omega) (by simpa using hres) le_rfl
    rw [← b.size_eq]
    obtain ⟨hfit, hsorted, hcover⟩ := @ih (pfn + b.size) (by omega)
    refine ⟨List.forall_mem_cons.mpr ⟨hbfit, fun c hc => (hfit c hc).mono (by omega)⟩,
      List.pairwise_cons.mpr ⟨fun c hc => (hfit c hc).lower, hsorted⟩, fun f hlo hhi hf => ?_⟩
    by_cases hin : f < pfn + b.size
    · exact ⟨b, List.mem_cons_self, mem_frames.mpr ⟨hlo, hin⟩⟩
    · obtain ⟨c, hc, hfc⟩ := hcover f (by omega) hhi hf
      exact ⟨c, List.mem_cons_of_mem _ hc, hfc⟩

/-! ### The third pass as a whole -/

/-- The blocks of all regions, in the order they are pushed. -/
def bootBlocks (m : MemInfo) (rs : List (Nat × Nat)) : List Block :=
  rs.flatMap fun r => regionBlocks m r.2 (r.2 - r.1) r.1

theorem pushBlocks_sameReserved (h : SameReserved m m') (bs : List Block) :
    SameReserved m (pushBlocks bs m') := by
  induction bs generalizing m' with
  | nil => exact h
  | cons b bs ih => exact ih (addFreeBlock_sameReserved h _ _)

theorem addUsable_eq (map : List MemoryMapEntry) (m : MemInfo) :
    addUsable map m = pushBlocks (bootBlocks m (map.filterMap usableRegion)) m := by
  have hfold : ∀ (rs : List (Nat × Nat)) (m' : MemInfo), SameReserved m m' →
      rs.foldl (fun m r => addRegion r.2 (r.2 - r.1) r.1 m) m' =
        pushBlocks (bootBlocks m rs) m' := by
    intro rs
    induction rs with
    | nil => intro m' _; rfl
    | cons r rs ih =>
      intro m' h
      have hcons : bootBlocks m (r :: rs) =
          regionBlocks m r.2 (r.2 - r.1) r.1 ++ bootBlocks m rs := List.flatMap_cons
      rw [List.foldl_cons, addRegion_eq h, ih _ (pushBlocks_sameReserved h _), hcons]
      exact List.foldl_append.symm
  exact hfold _ m fun _ => rfl

/-- The page counters count every pushed block, also one pushed twice. -/
theorem pushBlocks_counters (bs : List Block) (m : MemInfo) :
    (pushBlocks bs m).totalPages = m.totalPages ∧
      (pushBlocks bs m).freePages = m.freePages + (bs.map size).sum ∧
      (pushBlocks bs m).zone.freePages = m.zone.freePages + (bs.map size).sum := by
  induction bs generalizing m with
  | nil => exact ⟨rfl, rfl, rfl⟩
  | cons b bs ih =>
    obtain ⟨htotal, hinfo, hzone⟩ := ih (addFreeBlock m b.base b.order)
    have hpush : pushBlocks (b :: bs) m = pushBlocks bs (addFreeBlock m b.base b.order) := rfl
    rw [hpush, htotal, hinfo, hzone, List.map_cons, List.sum_cons, b.size_eq]
    simp [addFreeBlock, add_assoc]

/-- Blocks with different first pages, pushed one after the other. -/
theorem Lists.pushBlocks (h : Lists m free) (bs : List Block)
    (horder : ∀ b ∈ bs, b.order ≤ maxOrder) (hbases : bs.Pairwise fun b c => b.base ≠ c.base)
    (hnew : ∀ b ∈ bs, ∀ c ∈ free, c.base ≠ b.base) :
    Lists (pushBlocks bs m) (bs.toFinset ∪ free) := by
  induction bs generalizing m free with
  | nil =>
    rw [List.toFinset_nil, empty_union]
    exact h
  | cons b bs ih =>
    obtain ⟨hb, hbs⟩ := List.pairwise_cons.mp hbases
    have hstep : Lists (addFreeBlock m b.base b.order) (insert b free) :=
      (h.add (horder b List.mem_cons_self) (hnew b List.mem_cons_self)).frame rfl rfl rfl
        (fun _ => rfl) (fun _ => rfl) (fun _ => rfl) fun _ _ => rfl
    have hrest := ih hstep (fun c hc => horder c (List.mem_cons_of_mem _ hc)) hbs
      fun c hc d hd => by
      rcases mem_insert.mp hd with rfl | hd
      · exact hb c hc
      · exact hnew c (List.mem_cons_of_mem _ hc) d hd
    rwa [union_insert, ← insert_union, ← List.toFinset_cons] at hrest

/-- Before the third pass no block is free. -/
theorem Marking.lists (h : Marking m.totalPages R m) : Lists m ∅ where
  list k _ := ⟨[], ⟨DList.nil, by simp [h.freeLists], by simp [h.freeCount]⟩, by simp⟩
  only q hq hbuddy := by
    rw [h.unlisted q hq] at hbuddy
    cases hbuddy
  order_le := by simp
  flag := by simp

section Boot

variable {m : MemInfo} {rs : List (Nat × Nat)}

theorem mem_bootBlocks : b ∈ bootBlocks m rs ↔ ∃ r ∈ rs, b ∈ regionBlocks m r.2 (r.2 - r.1) r.1 :=
  List.mem_flatMap

theorem bootBlocks_fitsIn (hb : b ∈ bootBlocks m rs) : ∃ r ∈ rs, FitsIn m r.1 r.2 b := by
  obtain ⟨r, hr, hbr⟩ := mem_bootBlocks.mp hb
  exact ⟨r, hr, (regionBlocks_spec m le_rfl).1 b hbr⟩

/-- A block that fits in a region holds unreserved frames of the region only. -/
theorem FitsIn.frame (h : FitsIn m r.1 r.2 b) (hf : f ∈ b.frames) :
    InRange r f ∧ (m.pages f).flags.reserved = false := by
  obtain ⟨hlo, hhi⟩ := mem_frames.mp hf
  exact ⟨⟨h.lower.trans hlo, hhi.trans_le h.upper⟩, h.unreserved f hf⟩

/-- The pushed blocks cover the unreserved frames of the regions. -/
theorem mem_bootBlocks_frames : (∃ b ∈ bootBlocks m rs, f ∈ b.frames) ↔
      (∃ r ∈ rs, InRange r f) ∧ (m.pages f).flags.reserved = false := by
  constructor
  · rintro ⟨b, hb, hf⟩
    obtain ⟨r, hr, hfit⟩ := bootBlocks_fitsIn hb
    exact ⟨⟨r, hr, (hfit.frame hf).1⟩, (hfit.frame hf).2⟩
  · rintro ⟨⟨r, hr, hlo, hhi⟩, hfree⟩
    obtain ⟨b, hb, hf⟩ := (regionBlocks_spec m le_rfl).2.2 f hlo hhi hfree
    exact ⟨b, mem_bootBlocks.mpr ⟨r, hr, hb⟩, hf⟩

section

variable (hrs : rs.Pairwise fun r r' =>
  ∀ f, InRange r f → InRange r' f → (m.pages f).flags.reserved = true)
include hrs

/-- Regions that share no unreserved frame give blocks that share no frame. -/
theorem bootBlocks_disjoint : (bootBlocks m rs).Pairwise fun b c => Disjoint b.frames c.frames := by
  rw [bootBlocks, List.pairwise_flatMap]
  refine ⟨fun r _ => (regionBlocks_spec m le_rfl).2.1.imp fun {b c} hle => ?_,
    hrs.imp fun {r r'} hr b hb c hc => ?_⟩
  · rw [disjoint_left]
    intro f hb hc
    rw [mem_frames] at hb hc
    omega
  have hbfit := (regionBlocks_spec m le_rfl).1 b hb
  have hcfit := (regionBlocks_spec m le_rfl).1 c hc
  rw [disjoint_left]
  intro f hf hf'
  obtain ⟨hin, hfree⟩ := hbfit.frame hf
  rw [hr f hin (hcfit.frame hf').1] at hfree
  cases hfree

/-- When the regions share no unreserved frame, the third pass builds an arena
with no live blocks. -/
theorem pushBlocks_buddy (h : Marking m.totalPages R m)
    (hlow : ∀ r ∈ rs, 0 < r.1) (hhigh : ∀ r ∈ rs, r.1 < r.2 → r.2 ≤ m.totalPages) :
    ∃ A : Arena, Buddy (pushBlocks (bootBlocks m rs) m) A ∧ A.live = ∅ ∧
      A.free = (bootBlocks m rs).toFinset := by
  have hdisj := bootBlocks_disjoint hrs
  have hbases := hdisj.imp fun {b c} hbc (he : b.base = c.base) =>
    disjoint_left.mp hbc b.base_mem_frames (he ▸ c.base_mem_frames)
  have hnd : (bootBlocks m rs).Nodup := hbases.imp fun hne he => hne (congrArg base he)
  have hfit : ∀ b ∈ bootBlocks m rs, ∃ r ∈ rs, FitsIn m r.1 r.2 b := fun b => bootBlocks_fitsIn
  have halign : ∀ b ∈ (bootBlocks m rs).toFinset, b.Aligned := by
    intro b hb
    obtain ⟨r, -, hbr⟩ := hfit b (List.mem_toFinset.mp hb)
    exact hbr.aligned
  have hapart : Apart (bootBlocks m rs).toFinset := by
    intro b hb c hc hne
    exact hdisj.forall (List.mem_toFinset.mp hb) (List.mem_toFinset.mp hc) hne
  have hlists := h.lists.pushBlocks (bootBlocks m rs)
    (fun b hb => (hfit b hb).choose_spec.2.order_le) hbases (by simp)
  rw [union_empty] at hlists
  obtain ⟨htotal, hinfo, hzone⟩ := pushBlocks_counters (bootBlocks m rs) m
  have hsum : (Arena.ofFree _ halign hapart).freePages = ((bootBlocks m rs).map size).sum :=
    List.sum_toFinset _ hnd
  refine ⟨Arena.ofFree _ halign hapart, ⟨hlists, by simp [Arena.ofFree], fun f hf => ?_, ?_, ?_⟩,
    rfl, rfl⟩
  · obtain ⟨b, hb, hfb⟩ := Arena.mem_frames.mp hf
    obtain ⟨r, hr, hbr⟩ := hfit b (by simpa [Arena.ofFree] using hb)
    obtain ⟨⟨hlo, hhi⟩, -⟩ := hbr.frame hfb
    have hpos := hlow r hr
    have hle := hhigh r hr (by omega)
    omega
  · rw [hzone, h.zonePages, zero_add, hsum]
  · rw [hinfo, h.infoPages, zero_add, hsum]

end

end Boot

/-- The last loop of `pmm_init` only counts. -/
theorem Buddy.countReserved {A} (h : Buddy m A) : Buddy (countReserved m) A :=
  { h with
    lists := h.lists.frame rfl rfl rfl (fun _ => rfl) (fun _ => rfl) (fun _ => rfl) fun _ _ => rfl }

end Kurios.Pmm
