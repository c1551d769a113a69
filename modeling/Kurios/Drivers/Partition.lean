import Mathlib

/-!
Partitions: `part_read` and `part_write` (`kernel/drivers/partition.c`) between two calls of
`block_read` or `block_write` (`kernel/drivers/block.c`), one on the device of the partition and one
on the disk.

All three compare `sector + count` with a size in wrapping 64-bit arithmetic. A sum that wraps is
small, passes, and `start_sector + sector` wraps with it to a sector before the partition:
`confined_iff`.

A request that passes is given to the driver of the disk, whose own work is not modelled.
-/

namespace Kurios.Drivers

/-- `block_read` or `block_write`. -/
inductive Direction where
  | read
  | write
deriving DecidableEq, Repr

/-- What a request comes to: an error, or sectors that the driver of the disk transfers. -/
inductive Outcome where
  | error (code : Int)
  | issued (sector : UInt64) (count : UInt32)
deriving DecidableEq, Repr

/-- `block_device_t`; `ops` is what its operation in the direction of the request does, if it has
one. -/
structure BlockDevice where
  sectorCount : UInt64
  readOnly : Bool
  ops : Option (UInt64 → UInt32 → Outcome)

/-- `block_read` and `block_write`, which differ in the check of `read_only`. `buf` says whether
there is a buffer. -/
def blockTransfer (dir : Direction) (dev : BlockDevice) (sector : UInt64) (count : UInt32)
    (buf : Bool) : Outcome :=
  if !buf ∨ count = 0 then .error (-22)
  else if dir = .write ∧ dev.readOnly then .error (-30)
  else if sector + count.toUInt64 > dev.sectorCount then .error (-22)
  else
    match dev.ops with
    | none => .error (-5)
    | some op => op sector count

/-- A disk: its driver transfers what it is asked for. -/
structure Disk where
  sectorCount : UInt64
  readOnly : Bool
  hasOps : Bool

def Disk.dev (d : Disk) : BlockDevice where
  sectorCount := d.sectorCount
  readOnly := d.readOnly
  ops := if d.hasOps then some .issued else none

/-- `partition_dev_t`. -/
structure Partition where
  parent : Disk
  startSector : UInt64
  sectorCount : UInt64

namespace Partition

variable (p : Partition)

/-- `part_read` and `part_write`. -/
def transfer (dir : Direction) (sector : UInt64) (count : UInt32) : Outcome :=
  if sector + count.toUInt64 > p.sectorCount then .error (-1)
  else blockTransfer dir p.parent.dev (p.startSector + sector) count true

/-- The block device of the partition, as `partition_create` sets it up. -/
def dev (dir : Direction) : BlockDevice where
  sectorCount := p.sectorCount
  readOnly := p.parent.readOnly
  ops := some (p.transfer dir)

/-- A read or write of the partition. -/
def request (dir : Direction) (sector : UInt64) (count : UInt32) (buf : Bool) : Outcome :=
  blockTransfer dir (p.dev dir) sector count buf

/-- The partition lies on its disk. -/
def Inside : Prop :=
  p.startSector.toNat + p.sectorCount.toNat ≤ p.parent.sectorCount.toNat
deriving Decidable

/-- The request fails, or transfers the sectors from `start + sector` on, and these belong to the
partition. -/
def Confined (sector : UInt64) (count : UInt32) : Outcome → Prop
  | .error _ => True
  | .issued first n =>
    first.toNat = p.startSector.toNat + sector.toNat ∧ n = count ∧
      sector.toNat + count.toNat ≤ p.sectorCount.toNat

/-- The request is not refused for a reason other than its bounds. -/
def Admitted (dir : Direction) (count : UInt32) (buf : Bool) : Prop :=
  buf = true ∧ count ≠ 0 ∧ ¬ (dir = .write ∧ p.parent.readOnly = true) ∧ p.parent.hasOps = true

variable {p : Partition} {dir : Direction} {sector : UInt64} {count : UInt32} {buf : Bool}

/-- The parent finds no fault with what the partition lets through. -/
theorem request_of_le (hadm : p.Admitted dir count buf) (hinside : p.Inside)
    (hle : sector + count.toUInt64 ≤ p.sectorCount) :
    p.request dir sector count buf = .issued (p.startSector + sector) count := by
  obtain ⟨rfl, hcnt, hro, hops⟩ := hadm
  have hsum : (p.startSector + sector + count.toUInt64).toNat ≤ p.parent.sectorCount.toNat := by
    calc
      _ = (p.startSector.toNat + (sector + count.toUInt64).toNat) % 2 ^ 64 := by
        rw [UInt64.add_assoc, UInt64.toNat_add]
      _ ≤ p.startSector.toNat + (sector + count.toUInt64).toNat := Nat.mod_le _ _
      _ ≤ p.startSector.toNat + p.sectorCount.toNat := Nat.add_le_add_left hle _
      _ ≤ p.parent.sectorCount.toNat := hinside
  have hstart : ¬ ((!true) = true ∨ count = 0) := by simp [hcnt]
  have hbound := UInt64.not_lt.mpr hle
  have hdisk := UInt64.not_lt.mpr hsum
  simp only [request, blockTransfer, dev, transfer, Disk.dev, if_neg hstart, if_neg hro,
    if_neg hbound, if_neg hdisk, hops, if_true]

theorem request_error (h : p.Admitted dir count buf → sector + count.toUInt64 > p.sectorCount) :
    ∃ code, p.request dir sector count buf = .error code := by
  unfold request blockTransfer
  split
  · exact ⟨_, rfl⟩
  case isFalse hbuf =>
  split
  · exact ⟨_, rfl⟩
  case isFalse hro =>
  split
  · exact ⟨_, rfl⟩
  case isFalse hbound =>
  -- only the operations of the disk can be missing
  have hops : p.parent.hasOps = false := by
    by_contra hops
    simp only [Bool.not_eq_true, not_or, Bool.not_eq_false] at hbuf hops
    refine hbound (h ⟨?_, hbuf.2, hro, hops⟩)
    simpa using hbuf.1
  simp only [dev, transfer] at hbound ⊢
  rw [if_neg hbound, blockTransfer]
  simp only [Disk.dev, hops, Bool.false_eq_true, if_false]
  repeat' split
  all_goals exact ⟨_, rfl⟩

/-- **Partition confinement.** A request stays in the partition, unless the sum of its sector and
count wraps to at most the size of the partition. -/
theorem confined_iff (hinside : p.Inside) (dir : Direction) (sector : UInt64) (count : UInt32)
    (buf : Bool) : p.Confined sector count (p.request dir sector count buf) ↔
      (p.Admitted dir count buf → 2 ^ 64 ≤ sector.toNat + count.toNat →
        p.sectorCount.toNat < sector.toNat + count.toNat - 2 ^ 64) := by
  have hsector := sector.toNat_lt
  have hcount := count.toNat_lt
  have hgt : sector + count.toUInt64 > p.sectorCount ↔
      p.sectorCount.toNat < (sector.toNat + count.toNat) % 2 ^ 64 := by
    exact UInt64.lt_iff_toNat_lt
  by_cases hissued : p.Admitted dir count buf ∧ ¬ sector + count.toUInt64 > p.sectorCount
  case neg =>
    -- the request fails
    rw [not_and, not_not] at hissued
    obtain ⟨code, heq⟩ := request_error hissued
    rw [heq]
    refine ⟨fun _ hadm hwrap => ?_, fun _ => trivial⟩
    have hlarge := hgt.mp (hissued hadm)
    omega
  case pos =>
  obtain ⟨hadm, hle⟩ := hissued
  rw [request_of_le hadm hinside (UInt64.not_lt.mp hle)]
  have hle' := hgt.not.mp hle
  have hin : p.startSector.toNat + p.sectorCount.toNat < 2 ^ 64 :=
    lt_of_le_of_lt hinside p.parent.sectorCount.toNat_lt
  constructor
  · rintro ⟨-, -, hfits⟩ _ hwrap
    omega
  intro hnowrap
  have hsmall : sector.toNat + count.toNat < 2 ^ 64 := by
    by_contra hwrap
    have := hnowrap hadm (not_lt.mp hwrap)
    omega
  refine ⟨?_, rfl, by omega⟩
  rw [UInt64.toNat_add]
  exact Nat.mod_eq_of_lt (by omega)

/-- A partition of 1000 sectors from sector 2048 on. -/
def smallPartition : Partition := ⟨⟨8192, false, true⟩, 2048, 1000⟩

theorem confined_smallPartition : smallPartition.request .write 990 10 true = .issued 3038 10 ∧
      smallPartition.Confined 990 10 (smallPartition.request .write 990 10 true) :=
  ⟨by decide, (confined_iff (p := smallPartition) (by decide) .write 990 10 true).mpr
    fun _ hwrap => absurd hwrap (by decide)⟩

/-- A write to the last of all sectors of the partition's numbering goes to the sector before the
partition. -/
theorem write_before_partition :
    smallPartition.Inside ∧ smallPartition.request .write 0xFFFFFFFFFFFFFFFF 1 true =
      .issued 2047 1 ∧
      ¬ smallPartition.Confined 0xFFFFFFFFFFFFFFFF 1
        (smallPartition.request .write 0xFFFFFFFFFFFFFFFF 1 true) := by
  have heq : smallPartition.request .write 0xFFFFFFFFFFFFFFFF 1 true = .issued 2047 1 := by decide
  refine ⟨by decide, heq, ?_⟩
  rintro ⟨-, -, hfits⟩
  exact absurd hfits (by decide)

end Partition

end Kurios.Drivers
