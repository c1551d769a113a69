import Kurios.Base.Bytes

/-!
Partition tables: `partition_scan` with `mbr_scan` and `gpt_scan` (`kernel/drivers/partition.c`).

`mbr_scan` compares the end of a partition with the size of the disk, and `gpt_scan` does not. So
what is registered lies on the disk exactly if the used entries of the GPT do (`scan_onDisk_iff`).
The name, number and type of a partition are left out.
-/

namespace Kurios.Drivers

open Base List

/-- A partition device that is registered. -/
structure PartDev where
  start : Nat
  count : Nat
  capacity : Nat
deriving DecidableEq

/-- A disk: what `block_read` of one sector yields, unless it fails or there is no memory for the
sector, and whether another partition can be allocated and registered. -/
structure TableDisk where
  sectorCount : Nat
  sectorSize : Nat
  read : Nat → Option Buffer
  registers : List PartDev → Bool

section

variable (d : TableDisk)

/-- `partition_create`. -/
def partitionCreate (start count : Nat) (parts : List PartDev) : List PartDev :=
  if d.registers parts then ⟨start, count, count * d.sectorSize % 2 ^ 64⟩ :: parts else parts

def createExtent (parts : List PartDev) : Option (Nat × Nat) → List PartDev
  | none => parts
  | some (start, count) => partitionCreate d start count parts

/-- The type of entry `i` of the MBR. -/
def mbrType (mbr : Buffer) (i : Nat) : Nat := load mbr (0x1BE + 16 * i + 4) 1

/-- The checks of `mbr_scan` on entry `i`: start and size of a partition. -/
def mbrExtent (mbr : Buffer) (i : Nat) : Option (Nat × Nat) :=
  let start := load mbr (0x1BE + 16 * i + 8) 4
  let count := load mbr (0x1BE + 16 * i + 12) 4
  if mbrType mbr i = 0x00 ∨ mbrType mbr i = 0x05 ∨ mbrType mbr i = 0x0F then none
  else if start = 0 ∨ count = 0 ∨ start + count > d.sectorCount then none
  else some (start, count)

/-- `mbr_scan`, which gives up at the entry of a protective MBR. -/
def mbrScan (mbr : Buffer) : (entries : List Nat) → List PartDev → Int × List PartDev
  | [], parts => (parts.length, parts)
  | i :: entries, parts =>
    if mbrType mbr i = 0xEE then (-1, parts)
    else mbrScan mbr entries (createExtent d parts (mbrExtent d mbr i))

/-- The checks of `gpt_scan` on an entry. The number of sectors does not wrap, as `first` is
not 0. -/
def gptExtent (sector : Buffer) (entry : Nat) : Option (Nat × Nat) :=
  let first := load sector (entry + 32) 8
  let last := load sector (entry + 40) 8
  if load sector entry 16 = 0 ∨ first = 0 ∨ last < first then none
  else some (first, last - first + 1)

/-- The sector of entry `i` of the GPT. -/
def TableDisk.entrySector (table perSector i : Nat) : Option Buffer :=
  d.read ((table + i / perSector) % 2 ^ 64)

/-- The loop of `gpt_scan`. -/
def gptLoop (table entrySize perSector : Nat) :
    (left i : Nat) → Buffer → List PartDev → List PartDev
  | 0, _, _, parts => parts
  | left + 1, i, sector, parts =>
    match if i % perSector = 0 then d.entrySector table perSector i else some sector with
    | none => parts
    | some sector =>
      gptLoop table entrySize perSector left (i + 1) sector
        (createExtent d parts (gptExtent sector (i % perSector * entrySize)))

/-- `gpt_scan`, with `EFI PART` as a number. -/
def gptScan (parts : List PartDev) : Int × List PartDev :=
  match d.read 1 with
  | none => (-1, parts)
  | some header =>
    let size := load header 84 4
    if load header 0 8 ≠ 0x5452415020494645 ∨ load header 12 4 < 92 ∨ size < 128 ∨
      d.sectorSize / size = 0 then (-1, parts)
    else
      let found := gptLoop d (load header 72 8) size (d.sectorSize / size)
        (min (load header 80 4) 128) 0 header parts
      (found.length - parts.length, found)

/-- `partition_scan`. -/
def partitionScan : Int × List PartDev :=
  match d.read 0 with
  | none => (-1, [])
  | some mbr =>
    if load mbr 510 2 ≠ 0xAA55 then (0, [])
    else
      let (count, parts) := mbrScan d mbr (range 4) []
      if count < 0 then (max 0 (gptScan d parts).1, (gptScan d parts).2) else (count, parts)

namespace TableDisk

/-- The partition is a part of the disk, and its capacity is right. -/
def OnDisk (p : PartDev) : Prop :=
  1 ≤ p.start ∧ 1 ≤ p.count ∧ p.start + p.count ≤ d.sectorCount ∧
    p.capacity = p.count * d.sectorSize

/-! ### What the tables offer -/

/-- The partitions in the MBR, up to a protective entry. -/
def mbrExtents (mbr : Buffer) (entries : List Nat) : List (Nat × Nat) :=
  (entries.takeWhile fun i => mbrType mbr i ≠ 0xEE).filterMap (mbrExtent d mbr)

/-- The partitions in the GPT, up to a sector that cannot be read. -/
def gptExtents (table size perSector : Nat) (entries : List Nat) : List (Nat × Nat) :=
  (entries.takeWhile fun i => (d.entrySector table perSector i).isSome).filterMap fun i =>
    (d.entrySector table perSector i).bind fun sector => gptExtent sector (i % perSector * size)

/-- The partitions in the GPT, if its header passes the checks. -/
def gptOffers : List (Nat × Nat) :=
  match d.read 1 with
  | none => []
  | some header =>
    let size := load header 84 4
    if load header 0 8 ≠ 0x5452415020494645 ∨ load header 12 4 < 92 ∨ size < 128 ∨
      d.sectorSize / size = 0 then []
    else d.gptExtents (load header 72 8) size (d.sectorSize / size)
      (range (min (load header 80 4) 128))

/-- The partitions in the tables: those of the MBR, and if it is protective those of the GPT. -/
def offers : List (Nat × Nat) :=
  match d.read 0 with
  | none => []
  | some mbr =>
    if load mbr 510 2 ≠ 0xAA55 then []
    else d.mbrExtents mbr (range 4) ++
      if ∃ i ∈ range 4, mbrType mbr i = 0xEE then d.gptOffers else []

end TableDisk

end

/-! ### What is registered -/

variable {d : TableDisk} {parts : List PartDev} {extents : List (Nat × Nat)}

/-- `partition_create` of one partition after the other. -/
def createAll (d : TableDisk) (extents : List (Nat × Nat)) (parts : List PartDev) : List PartDev :=
  extents.foldl (fun parts e => partitionCreate d e.1 e.2 parts) parts

/-- An entry is passed to `partition_create` if it is a partition. -/
theorem createAll_filterMap_cons {α : Type} (f : α → Option (Nat × Nat)) (x : α) (xs : List α) :
    createAll d ((x :: xs).filterMap f) parts =
      createAll d (xs.filterMap f) (createExtent d parts (f x)) := by
  cases hf : f x <;> simp [createAll, createExtent, hf]

theorem mbrScan_eq (mbr : Buffer) (entries : List Nat) :
    (mbrScan d mbr entries parts).2 = createAll d (d.mbrExtents mbr entries) parts ∧
      ((mbrScan d mbr entries parts).1 < 0 ↔ ∃ i ∈ entries, mbrType mbr i = 0xEE) := by
  induction entries generalizing parts with
  | nil => exact ⟨rfl, by simp [mbrScan]⟩
  | cons i entries ih =>
    unfold mbrScan TableDisk.mbrExtents
    by_cases hprot : mbrType mbr i = 0xEE
    · simp [hprot, createAll]
    · rw [if_neg hprot, takeWhile_cons_of_pos (by simpa using hprot), createAll_filterMap_cons]
      refine ⟨ih.1, ih.2.trans ?_⟩
      simp [hprot]

/-- The sector in hand is the one of the next entry, unless that is the first of a sector. -/
theorem gptLoop_eq {table size perSector left i sector}
    (hsector : i % perSector ≠ 0 → d.entrySector table perSector i = some sector) :
    gptLoop d table size perSector left i sector parts =
      createAll d (d.gptExtents table size perSector (range' i left)) parts := by
  induction left generalizing i sector parts with
  | zero => rfl
  | succ left ih =>
    have hread : (if i % perSector = 0 then d.entrySector table perSector i else some sector) =
        d.entrySector table perSector i := by
      split
      · rfl
      case isFalse hmod => exact (hsector hmod).symm
    unfold gptLoop TableDisk.gptExtents
    rw [hread, range'_succ]
    cases hnext : d.entrySector table perSector i with
    | none => simp [hnext, createAll]
    | some sector =>
      rw [takeWhile_cons_of_pos (by simp [hnext]), createAll_filterMap_cons, hnext,
        Option.bind_some, ← TableDisk.gptExtents]
      apply ih
      intro hmod
      rwa [TableDisk.entrySector,
        Nat.succ_div_of_not_dvd fun hdvd => hmod (Nat.mod_eq_zero_of_dvd hdvd)]

theorem gptScan_eq : (gptScan d parts).2 = createAll d d.gptOffers parts := by
  unfold gptScan TableDisk.gptOffers
  cases d.read 1 with
  | none => rfl
  | some header =>
    dsimp only
    split
    · rfl
    · rw [range_eq_range', gptLoop_eq (absurd (Nat.zero_mod _))]

theorem partitionScan_eq : (partitionScan d).2 = createAll d d.offers [] := by
  unfold partitionScan TableDisk.offers
  cases d.read 0 with
  | none => rfl
  | some mbr =>
    obtain ⟨hparts, hcount⟩ := @mbrScan_eq d [] mbr (range 4)
    dsimp only
    split
    · rfl
    simp only [createAll, foldl_append, ← hcount]
    split
    · rw [gptScan_eq, hparts]
      rfl
    · exact hparts

/-- What is registered has been offered. -/
theorem mem_createAll {p} (h : p ∈ createAll d extents parts) : p ∈ parts ∨
    ∃ e ∈ extents, p = ⟨e.1, e.2, e.2 * d.sectorSize % 2 ^ 64⟩ := by
  induction extents generalizing parts with
  | nil => exact .inl h
  | cons e extents ih =>
    rcases ih h with hold | ⟨e', he', rfl⟩
    · change p ∈ partitionCreate d e.1 e.2 parts at hold
      unfold partitionCreate at hold
      split at hold
      · rcases mem_cons.mp hold with rfl | hold
        · exact .inr ⟨e, mem_cons_self, rfl⟩
        · exact .inl hold
      · exact .inl hold
    · exact .inr ⟨e', mem_cons_of_mem _ he', rfl⟩

/-- Where every registration succeeds, all that has been offered is registered. -/
theorem createAll_of_registers (hall : ∀ parts, d.registers parts = true) :
    createAll d extents parts = (extents.map fun e =>
      ⟨e.1, e.2, e.2 * d.sectorSize % 2 ^ 64⟩).reverse ++ parts := by
  induction extents generalizing parts with
  | nil => rfl
  | cons e extents ih =>
    rw [createAll, foldl_cons, ← createAll, ih]
    simp [partitionCreate, hall]

/-- A partition that passes the checks neither starts at 0 nor is empty. -/
theorem offers_pos {e} (he : e ∈ d.offers) : 1 ≤ e.1 ∧ 1 ≤ e.2 := by
  have hmbr : ∀ mbr, ∀ e ∈ d.mbrExtents mbr (range 4), 1 ≤ e.1 ∧ 1 ≤ e.2 := by
    intro mbr e he
    obtain ⟨i, -, hi⟩ := mem_filterMap.mp he
    unfold mbrExtent at hi
    grind
  have hgpt : ∀ e ∈ d.gptOffers, 1 ≤ e.1 ∧ 1 ≤ e.2 := by
    intro e he
    unfold TableDisk.gptOffers at he
    split at he
    · cases he
    dsimp only at he
    split at he
    · cases he
    obtain ⟨i, -, hi⟩ := mem_filterMap.mp he
    obtain ⟨sector, -, hextent⟩ := Option.bind_eq_some_iff.mp hi
    unfold gptExtent at hextent
    grind
  unfold TableDisk.offers at he
  split at he
  · cases he
  split at he
  · cases he
  rcases mem_append.mp he with he | he
  · exact hmbr _ e he
  · split at he
    · exact hgpt e he
    · cases he

/-- **Partition tables.** What a scan registers, whichever registrations succeed, lies on the disk
exactly if the partitions that the tables offer do, and their sizes in bytes have 64 bits. -/
theorem scan_onDisk_iff (d : TableDisk) :
    (∀ registers, ∀ p ∈ (partitionScan { d with registers := registers }).2, d.OnDisk p) ↔
      ∀ e ∈ d.offers, e.1 + e.2 ≤ d.sectorCount ∧ e.2 * d.sectorSize < 2 ^ 64 := by
  constructor
  · intro honDisk e he
    have hscan := partitionScan_eq (d := { d with registers := fun _ => true })
    rw [createAll_of_registers fun _ => rfl, append_nil] at hscan
    obtain ⟨-, -, hend, hbytes⟩ := honDisk (fun _ => true)
      ⟨e.1, e.2, e.2 * d.sectorSize % 2 ^ 64⟩ (by
        rw [hscan, mem_reverse, mem_map]
        exact ⟨e, he, rfl⟩)
    exact ⟨hend, hbytes ▸ Nat.mod_lt _ (by decide)⟩
  · intro hfit registers p hp
    rw [partitionScan_eq] at hp
    obtain hnil | ⟨e, he, rfl⟩ := mem_createAll hp
    · cases hnil
    · obtain ⟨hend, hbytes⟩ := hfit e he
      obtain ⟨hstart, hcount⟩ := offers_pos he
      exact ⟨hstart, hcount, hend, Nat.mod_eq_of_lt hbytes⟩

/-- A disk of 2048 sectors with a GPT of one entry. -/
def gptDisk (last : Nat) : TableDisk where
  sectorCount := 2048
  sectorSize := 512
  registers _ := true
  read
    | 0 => some (store (store (fun _ => 0) 450 1 0xEE) 510 2 0xAA55)
    | 1 => some (store (store (store (store (store (fun _ => 0) 0 8 0x5452415020494645) 12 4 92)
        72 8 2) 80 4 1) 84 4 128)
    | _ => some (store (store (store (fun _ => 0) 0 1 1) 32 8 34) 40 8 last)

example : (gptDisk 2047).offers = [(34, 2014)] := by decide +kernel

/-- A partition that ends behind the disk is registered. -/
theorem gpt_behind_disk : (partitionScan (gptDisk 4095)).2 = [⟨34, 4062, 2079744⟩] ∧
    ¬ (gptDisk 4095).OnDisk ⟨34, 4062, 2079744⟩ := by
  refine ⟨by decide +kernel, ?_⟩
  rintro ⟨-, -, hend, -⟩
  exact absurd hend (by decide)

end Kurios.Drivers
