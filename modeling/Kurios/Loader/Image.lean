import Kurios.Loader.Elf

/-!
The memory of a new program against its program headers.

`load_segment` gives every page of a segment a new frame, and `as_map_page` puts it in the
place of the frame that was there. So the contents and the permissions of a page are those
of the last segment that has a part of it (`lastLoader`), and the bytes of the other
segments in that page are lost. Neither does `elf_load` check that the file has the bytes
that a header names, that `p_filesz` is no more than `p_memsz`, or that a segment ends:
`p_vaddr + p_memsz - 1` may wrap around. The stores of the relocations do not belong to the
new memory, but a kernel address may lead one there.
-/

namespace Kurios.Loader

open Base Pmm Function Option List

/-! ### What the headers specify -/

/-- The bytes that a segment has at `p_vaddr`. -/
def Phdr.extent (p : Phdr) : Nat := max p.filesz p.memsz

/-- The byte at `p_vaddr + i`. `none`: the file has no such byte. -/
def Phdr.byteAt (f : ElfFile) (p : Phdr) (i : Nat) : Option UInt8 :=
  if i < p.filesz then
    if p.offset + i < f.size then some (f.bytes (p.offset + i)) else none
  else some 0

/-- The segment is in memory, with the permissions that it asks for. -/
def SegmentLoaded (f : ElfFile) (image : Image) (p : Phdr) : Prop :=
  ∀ i < p.extent, ∃ page, image ((p.vaddr + i) / pageSize) = some page ∧
    some (page.bytes ((p.vaddr + i) % pageSize)) = p.byteAt f i ∧
    (p.writable = true → page.writable = true)

/-- The segment has a part of page number `v`. -/
def Phdr.covers (p : Phdr) (v : Nat) : Bool :=
  p.pageStart ≤ v * pageSize && v * pageSize < p.pageEnd

/-- The last segment that has a part of page number `v`. -/
def lastLoader (ps : List Phdr) (v : Nat) : Option Phdr := ps.reverse.find? (·.covers v)

/-- The files whose segments do not get into each other's way: a segment ends in user space,
its bytes are in the file and in pages that are loaded, where another segment is the last
one in a page, the bytes there are zero and the other segment asks for no less, and a store
that reaches a byte leaves it as it was. -/
structure Loadable (f : ElfFile) (window : Window) (stores : List (Nat × Nat)) : Prop where
  user : ∀ p ∈ loads f, p.vaddr + p.extent ≤ 0x0000800000000000
  inFile : ∀ p ∈ loads f, p.filesz = 0 ∨ p.offset + p.filesz ≤ f.size
  paged : ∀ p ∈ loads f, ∀ i < p.extent,
    (lastLoader (loads f) ((p.vaddr + i) / pageSize)).isSome = true
  shared : ∀ p ∈ loads f, ∀ i < p.extent,
    ∀ q ∈ lastLoader (loads f) ((p.vaddr + i) / pageSize), q ≠ p →
      (p.writable = true → q.writable = true) ∧
        (lastStored window stores ((p.vaddr + i) / pageSize) ((p.vaddr + i) % pageSize) = none →
          p.byteAt f i = some 0)
  stored : ∀ p ∈ loads f, ∀ i < p.extent,
    ∀ b ∈ lastStored window stores ((p.vaddr + i) / pageSize) ((p.vaddr + i) % pageSize),
      p.byteAt f i = some b

theorem Phdr.filesz_le (p : Phdr) : p.filesz ≤ p.extent := le_max_left _ _

theorem Phdr.memsz_le (p : Phdr) : p.memsz ≤ p.extent := le_max_right _ _

theorem Phdr.covers_iff {p : Phdr} {v : Nat} :
    p.covers v = true ↔ p.pageStart ≤ v * pageSize ∧ v * pageSize < p.pageEnd := by
  simp [Phdr.covers]

variable {f : ElfFile} {p q : Phdr} {ps : List Phdr} {image image' : Image} {page : UserPage}
  {v i n : Nat} {window : Window} {stores : List (Nat × Nat)}

/-! ### One segment -/

theorem Phdr.pageStart_eq (p : Phdr) : p.pageStart = p.vaddr / pageSize * pageSize :=
  alignDown_pageSize p.vaddr

theorem Phdr.pageEnd_eq (h : p.vaddr + p.extent ≤ 0x0000800000000000) :
    p.pageEnd = (p.vaddr + p.memsz + 4095) / pageSize * pageSize := by
  have hmem := p.memsz_le
  unfold Phdr.pageEnd
  rw [alignUp_pageSize, u64_of_lt (by omega : p.vaddr + p.memsz < 2 ^ 64), u64_of_lt (by omega)]
  rfl

/-- The end of a segment that is accepted is in user space, also where it wraps around. -/
theorem Phdr.pageEnd_le (h : p.inUserSpace = true) : p.pageEnd ≤ 0x0000800000000000 := by
  simp only [Phdr.inUserSpace, isUserAddr, Bool.and_eq_true, decide_eq_true_eq] at h
  unfold Phdr.pageEnd
  rw [alignUp_pageSize]
  unfold u64 at *
  omega

/-- The pages of a segment are replaced, the others stay. -/
theorem loadSegment_eq (h : loadSegment f p image = some image') (v : Nat) :
    image' v = if p.covers v then loadPage f p (v * pageSize) else image v := by
  have hpages : ∀ n image', (range n).foldlM (fun image i =>
      (loadPage f p (p.pageStart + i * pageSize)).map fun page =>
        update image ((p.pageStart + i * pageSize) / pageSize) (some page)) image =
        some image' →
      image' v = if p.vaddr / pageSize ≤ v ∧ v < p.vaddr / pageSize + n then
        loadPage f p (v * pageSize) else image v := by
    intro n
    induction n with
    | zero =>
      intro image' h
      rw [if_neg (by omega), ← some.inj h]
    | succ n ih =>
      intro image' h
      rw [range_succ, foldlM_append] at h
      obtain ⟨mid, hmid, h⟩ := bind_eq_some_iff.mp h
      obtain ⟨last, hlast, hend⟩ := bind_eq_some_iff.mp h
      obtain ⟨page, hpage, rfl⟩ := map_eq_some_iff.mp hlast
      cases some.inj hend
      have hnum : (p.pageStart + n * pageSize) / pageSize = p.vaddr / pageSize + n := by
        rw [p.pageStart_eq, ← add_mul]
        exact Nat.mul_div_cancel _ (by decide)
      by_cases hv : v = p.vaddr / pageSize + n
      case pos =>
        have haddr : v * pageSize = p.pageStart + n * pageSize := by
          rw [p.pageStart_eq, ← add_mul, hv]
        rw [hnum, ← hv, update_self, if_pos (by omega), haddr, hpage]
      case neg =>
      rw [hnum, update_of_ne hv, ih mid hmid]
      refine if_congr ?_ rfl rfl
      omega
  rw [hpages _ image' h]
  refine if_congr ?_ rfl rfl
  have hend : p.pageEnd = p.pageEnd / pageSize * pageSize := by
    unfold Phdr.pageEnd
    rw [alignUp_pageSize]
    exact congrArg (· * 4096) (Nat.mul_div_cancel _ (by decide)).symm
  have hstart := p.pageStart_eq
  rw [Phdr.covers_iff]
  simp only [pageSize] at *
  omega

/-- A page of a segment that ends: the bytes of the file in its range, zeros around them. -/
theorem loadPage_spec (hsize : f.size < 2 ^ 64) (huser : p.vaddr + p.extent ≤ 0x0000800000000000)
    (hfile : p.filesz = 0 ∨ p.offset + p.filesz ≤ f.size) (hv : p.covers v = true) :
    ∃ page, loadPage f p (v * pageSize) = some page ∧ page.writable = p.writable ∧
      ∀ k < pageSize, page.bytes k =
        if p.vaddr ≤ v * pageSize + k ∧ v * pageSize + k < p.vaddr + p.filesz then
          f.bytes (p.offset + (v * pageSize + k - p.vaddr)) else 0 := by
  have hfilesz := p.filesz_le
  have hmemsz := p.memsz_le
  rw [Phdr.covers_iff, p.pageStart_eq, Phdr.pageEnd_eq huser] at hv
  obtain ⟨hlow, hhigh⟩ : p.vaddr < v * pageSize + 4096 ∧ v * pageSize < 0x0000800000000000 := by
    simp only [pageSize] at *
    omega
  generalize v * pageSize = a at *
  unfold loadPage
  have hend : u64 (p.vaddr + p.filesz) = p.vaddr + p.filesz := u64_of_lt (by omega)
  have hnext : u64 (a + pageSize) = a + 4096 := u64_of_lt (by simp only [pageSize]; omega)
  rw [hend, hnext]
  by_cases hbef : a < p.vaddr + p.filesz
  case neg =>
    rw [if_neg hbef]
    refine ⟨_, rfl, rfl, fun k hk => ?_⟩
    exact (if_neg (by omega)).symm
  case pos =>
  rw [if_pos hbef]
  -- the bytes that are copied are those of the page in the range of the file
  obtain ⟨start, hstart, hstart'⟩ : ∃ start, (if a < p.vaddr then p.vaddr else a) = start ∧
      (start = p.vaddr ∧ a < p.vaddr ∨ start = a ∧ p.vaddr ≤ a) :=
    ⟨_, rfl, by split <;> omega⟩
  obtain ⟨stop, hstop, hstop'⟩ : ∃ stop,
      (if p.vaddr + p.filesz < a + 4096 then p.vaddr + p.filesz else a + 4096) = stop ∧
      (stop = p.vaddr + p.filesz ∧ stop ≤ a + 4096 ∨ stop = a + 4096 ∧ stop ≤ p.vaddr + p.filesz) :=
    ⟨_, rfl, by split <;> omega⟩
  rw [if_neg (by omega)]
  refine ⟨_, rfl, rfl, fun k hk => ?_⟩
  simp only [pageSize] at hk
  dsimp only [copy]
  by_cases hin : p.vaddr ≤ a + k ∧ a + k < p.vaddr + p.filesz
  case neg => rw [if_neg hin, if_neg (by omega)]
  case pos =>
    rw [if_pos hin, if_pos (by omega), u64_of_lt (by omega)]
    exact congrArg f.bytes (by omega)

/-! ### All segments -/

/-- Every page is what the last segment with a part of it makes of it. -/
theorem foldlM_loadPhdr (h : ps.foldlM (loadPhdr f) image = some image') (v : Nat) :
    image' v = ((lastLoader (ps.filter (·.type = ptLoad)) v).elim (image v) fun q =>
      loadPage f q (v * pageSize)) := by
  induction ps generalizing image with
  | nil => exact congrFun (some.inj h).symm v
  | cons p ps ih =>
    obtain ⟨mid, hmid, hrest⟩ := bind_eq_some_iff.mp h
    rw [ih hrest]
    unfold loadPhdr at hmid
    by_cases hload : p.type = ptLoad
    case neg =>
      rw [if_neg hload] at hmid
      rw [filter_cons_of_neg (by simpa using hload), some.inj hmid]
    case pos =>
    rw [if_pos hload] at hmid
    obtain ⟨-, hmid⟩ := ite_none_right_eq_some.mp hmid
    rw [filter_cons_of_pos (by simpa using hload)]
    unfold lastLoader
    rw [reverse_cons, find?_append, loadSegment_eq hmid v]
    cases find? (fun q => q.covers v) (ps.filter (·.type = ptLoad)).reverse with
    | some q => rfl
    | none =>
      cases hp : p.covers v with
      | true => simp [hp]
      | false => simp [hp]

theorem foldlM_inUserSpace (h : ps.foldlM (loadPhdr f) image = some image') :
    ∀ p ∈ ps.filter (·.type = ptLoad), p.inUserSpace = true := by
  induction ps generalizing image with
  | nil => exact fun p hp => absurd hp not_mem_nil
  | cons q ps ih =>
    obtain ⟨mid, hmid, hrest⟩ := bind_eq_some_iff.mp h
    intro p hp
    obtain ⟨hp, htype⟩ := mem_filter.mp hp
    rcases mem_cons.mp hp with rfl | hp
    · unfold loadPhdr at hmid
      rw [if_pos (by simpa using htype)] at hmid
      exact (ite_none_right_eq_some.mp hmid).1
    · exact ih hrest p (mem_filter.mpr ⟨hp, htype⟩)

theorem mem_of_lastLoader (h : lastLoader ps v = some q) : q ∈ ps ∧ q.covers v = true :=
  ⟨mem_reverse.mp (mem_of_find?_eq_some h), find?_some (p := fun q : Phdr => q.covers v) h⟩

/-- `elf_load`, page by page. -/
theorem elfLoad_spec (h : elfLoad f image = some (image', stores)) :
    (∀ p ∈ loads f, p.inUserSpace = true) ∧
      ∀ v, image' v = (lastLoader (loads f) v).elim (image v) fun q =>
        loadPage f q (v * pageSize) := by
  obtain ⟨-, h⟩ := ite_none_right_eq_some.mp h
  obtain ⟨pages, hpages, h⟩ := bind_eq_some_iff.mp h
  obtain ⟨-, -, ⟨⟩⟩ := map_eq_some_iff.mp h
  exact ⟨foldlM_inUserSpace hpages, foldlM_loadPhdr hpages⟩

/-! ### The image -/

/-- Two segments have no address in common. -/
def Phdr.Apart (p q : Phdr) : Prop :=
  p.vaddr + p.extent ≤ q.vaddr ∨ q.vaddr + q.extent ≤ p.vaddr
deriving Decidable

/-- What is at an address of a segment `p`, by the last segment `q` of the page. -/
theorem byte_of_lastLoader (hsize : f.size < 2 ^ 64)
    (huser : ∀ p ∈ loads f, p.vaddr + p.extent ≤ 0x0000800000000000)
    (hfile : ∀ p ∈ loads f, p.filesz = 0 ∨ p.offset + p.filesz ≤ f.size)
    (hload : elfLoad f image = some (image', stores)) (hi : i < p.extent)
    (hq : lastLoader (loads f) ((p.vaddr + i) / pageSize) = some q) :
    ∃ page, image' ((p.vaddr + i) / pageSize) = some page ∧ page.writable = q.writable ∧
      (q = p → some (page.bytes ((p.vaddr + i) % pageSize)) = p.byteAt f i) ∧
      (p.Apart q → page.bytes ((p.vaddr + i) % pageSize) = 0) := by
  obtain ⟨hmem, hcovers⟩ := mem_of_lastLoader hq
  obtain ⟨page, hpage, hw, hbytes⟩ := loadPage_spec hsize (huser q hmem) (hfile q hmem) hcovers
  have haddr : (p.vaddr + i) / pageSize * pageSize + (p.vaddr + i) % pageSize = p.vaddr + i :=
    Nat.div_add_mod' _ _
  have hbyte := hbytes _ (Nat.mod_lt (p.vaddr + i) (by decide))
  rw [haddr] at hbyte
  refine ⟨page, ?_, hw, fun hqp => ?_, fun hapart => ?_⟩
  · rw [(elfLoad_spec hload).2, hq]
    exact hpage
  · rw [hqp] at hbyte hmem
    have hin := hfile p hmem
    rw [hbyte]
    unfold Phdr.byteAt
    by_cases hfilesz : i < p.filesz
    case neg => rw [if_neg (by omega), if_neg hfilesz]
    case pos => rw [if_pos (by omega), if_pos hfilesz, if_pos (by omega), Nat.add_sub_cancel_left]
  · have hbound := q.filesz_le
    unfold Phdr.Apart at hapart
    rw [hbyte, if_neg (by omega)]

/-- What the stores make of a page. -/
theorem Image.stored_eq_some_iff {page' : UserPage} :
    image.stored window stores v = some page' ↔ ∃ page, image v = some page ∧
      page' = { page with bytes := fun k =>
        (lastStored window stores v k).getD (page.bytes k) } := by
  unfold Image.stored
  rw [map_eq_some_iff]
  exact exists_congr fun page => and_congr_right fun _ => eq_comm

section

variable (hload : elfLoad f (fun _ => none) = some (image, stores))
include hload

/-- A segment that wraps around has addresses that no page is loaded for. -/
theorem user_of_loaded (hp : p ∈ loads f) (h : SegmentLoaded f (image.stored window stores) p) :
    p.vaddr + p.extent ≤ 0x0000800000000000 := by
  obtain ⟨haccepted, hpages⟩ := elfLoad_spec hload
  by_contra hwraps
  have hstart : p.vaddr < 0x0000800000000000 := by
    have hp := haccepted p hp
    simp only [Phdr.inUserSpace, isUserAddr, Bool.and_eq_true, decide_eq_true_eq] at hp
    exact hp.1
  obtain ⟨page, hpage, -⟩ := h (0x0000800000000000 - p.vaddr) (by omega)
  obtain ⟨page, hpage, -⟩ := Image.stored_eq_some_iff.mp hpage
  rw [Nat.add_sub_cancel' hstart.le, hpages] at hpage
  cases hq : lastLoader (loads f) (0x0000800000000000 / pageSize) with
  | none =>
    rw [hq] at hpage
    cases hpage
  | some q =>
    obtain ⟨hmem, hcovers⟩ := mem_of_lastLoader hq
    have hend := Phdr.pageEnd_le (haccepted q hmem)
    exact absurd (Phdr.covers_iff.mp hcovers).2 (not_lt.mpr hend)

omit hload in
theorem inFile_of_loaded (h : SegmentLoaded f image p) :
    p.filesz = 0 ∨ p.offset + p.filesz ≤ f.size := by
  by_contra hbeyond
  have hfilesz := p.filesz_le
  obtain ⟨page, -, hbyte, -⟩ := h (f.size - p.offset) (by omega)
  unfold Phdr.byteAt at hbyte
  rw [if_pos (by omega), if_neg (by omega)] at hbyte
  exact nomatch hbyte

end

/-! ### Files -/

/-- The little-endian bytes of a number. -/
def leBytes : Nat → Nat → List UInt8
  | 0, _ => []
  | n + 1, x => UInt8.ofNat x :: leBytes n (x / 256)

def Phdr.toBytes (p : Phdr) : List UInt8 :=
  leBytes 4 p.type ++ leBytes 4 p.flags ++ leBytes 8 p.offset ++ leBytes 8 p.vaddr ++
    leBytes 8 0 ++ leBytes 8 p.filesz ++ leBytes 8 p.memsz ++ leBytes 8 0

/-- An executable with the program headers `ps` and `data` behind them. -/
def elfOf (ps : List Phdr) (data : List UInt8) : ElfFile :=
  let bytes := [0x7F, 0x45, 0x4C, 0x46, 2, 1] ++ leBytes 10 0 ++ leBytes 2 2 ++ leBytes 2 62 ++
    leBytes 4 1 ++ leBytes 8 0x400000 ++ leBytes 8 64 ++ leBytes 16 0 ++ leBytes 2 ps.length ++
    leBytes 6 0 ++ ps.flatMap Phdr.toBytes ++ data
  { bytes := fun i => bytes.getD i 0, size := bytes.length }

/-- A position independent program: code, and data with a zeroed tail, in pages of their own,
the second one first, and one relocation, which stores `value` at `target`. -/
def relocated (target value : Nat) (interp : Nat) : ElfFile :=
  let f := elfOf [⟨ptLoad, 6, 362, 0x401002, 2, 4⟩, ⟨ptLoad, 5, 336, 0x400000, 26, 26⟩,
      ⟨ptDynamic, 6, 288, 0, 48, 48⟩, ⟨ptInterp, 4, 0, 0, interp, interp⟩]
    (leBytes 8 dtRela ++ leBytes 8 0x400000 ++ leBytes 8 dtRelasz ++ leBytes 8 relaSize ++
      leBytes 16 dtNull ++ leBytes 8 (u64 (target + (2 ^ 64 - 0x400000))) ++
      leBytes 8 rX8664Relative ++ leBytes 8 (u64 (value + (2 ^ 64 - 0x400000))) ++
      [0x90, 0x91, 0x41, 0x42])
  { f with bytes := update f.bytes 16 3 }

/-- The frame of page `0x400` is at `0xFFFFFFFF80300000`. -/
def codeWindow : Window := fun a =>
  if a / pageSize = 0xFFFFFFFF80300 then some (0x400, a % pageSize) else none

end Kurios.Loader
