import Kurios.Ext2.Defs

/-!
What the block functions of the ext2 driver do to a volume.

Allocation only sets bits (`Grows`), freeing only clears bits of given blocks (`Frees`),
and neither touches the contents of blocks. `mapBlock` is the block that the pointers of an
inode lead to for a logical block; `ext2_get_block` returns it, or zero when memory runs
out.
-/

namespace Kurios.Ext2

open Function List

variable {fs : Layout} {v v' v'' : Volume} {b i g : Nat}

/-! ### Changes of a volume -/

namespace Volume

/-- The volumes are the same on the device. -/
def SameDisk (v v' : Volume) : Prop := ∃ mem, mem <:+ v.mem ∧ v' = { v with mem := mem }

theorem SameDisk.refl (v : Volume) : v.SameDisk v := ⟨v.mem, suffix_refl _, rfl⟩

theorem SameDisk.trans (h : v.SameDisk v') (h' : v'.SameDisk v'') : v.SameDisk v'' := by
  obtain ⟨mem, hmem, rfl⟩ := h
  obtain ⟨mem', hmem', rfl⟩ := h'
  exact ⟨mem', hmem'.trans hmem, rfl⟩

theorem SameDisk.mem (h : v.SameDisk v') : v'.mem <:+ v.mem := by
  obtain ⟨mem, hmem, rfl⟩ := h
  exact hmem

theorem sameDisk_kmalloc {ok} (h : v.kmalloc = (ok, v')) : v.SameDisk v' := by
  unfold kmalloc at h
  split at h <;> cases h
  · exact .refl v
  · rename_i hmem
    exact ⟨_, hmem ▸ suffix_cons _ _, rfl⟩

/-- No allocation will fail. -/
def Ample (v : Volume) : Prop := ∀ ok ∈ v.mem, ok = true
deriving Decidable

theorem Ample.spent (h : v.Ample) (hmem : v'.mem <:+ v.mem) : v'.Ample :=
  fun ok hok => h ok (hmem.subset hok)

theorem Ample.kmalloc {ok} (h : v.Ample) (hk : v.kmalloc = (ok, v')) : ok = true := by
  unfold Volume.kmalloc at hk
  split at hk <;> cases hk
  · rfl
  · rename_i hmem
    exact h ok (hmem ▸ mem_cons_self)

end Volume

namespace Layout

/-- The blocks that `ext2_free_block` accepts. -/
def InRange (fs : Layout) (b : Nat) : Prop := fs.firstDataBlock ≤ b ∧ b < fs.blocksCount
deriving Decidable

/-- The bit of a block: its group and its index there. -/
def group (fs : Layout) (b : Nat) : Nat := (b - fs.firstDataBlock) / fs.blocksPerGroup
def index (fs : Layout) (b : Nat) : Nat := (b - fs.firstDataBlock) % fs.blocksPerGroup

/-- The block of a bit. -/
def blockOf (fs : Layout) (g i : Nat) : Nat := g * fs.blocksPerGroup + i + fs.firstDataBlock

theorem blockOf_bit (h : fs.firstDataBlock ≤ b) : fs.blockOf (fs.group b) (fs.index b) = b := by
  have hdiv := Nat.div_add_mod (b - fs.firstDataBlock) fs.blocksPerGroup
  unfold blockOf group index
  rw [mul_comm] at hdiv
  omega

theorem group_blockOf (hi : i < fs.blocksPerGroup) : fs.group (fs.blockOf g i) = g := by
  unfold blockOf group
  rw [Nat.add_sub_cancel, mul_comm, Nat.mul_add_div fs.blocksPerGroup_pos,
    Nat.div_eq_of_lt hi, add_zero]

theorem index_blockOf (hi : i < fs.blocksPerGroup) : fs.index (fs.blockOf g i) = i := by
  unfold blockOf index
  rw [Nat.add_sub_cancel, mul_comm, Nat.mul_add_mod, Nat.mod_eq_of_lt hi]

end Layout

namespace Volume

/-- The bit of a block in the block bitmap. -/
def used (fs : Layout) (v : Volume) (b : Nat) : Bool := v.blockBitmap (fs.group b) (fs.index b)

/-- The bits after the last block are set. -/
def Padded (fs : Layout) (v : Volume) : Prop :=
  ∀ g i, i < fs.blocksPerGroup → fs.blocksCount ≤ fs.blockOf g i → v.blockBitmap g i = true

/-- Only free blocks are taken. -/
structure Grows (v v' : Volume) : Prop where
  data : v'.data = v.data
  inodes : v'.inodes = v.inodes
  inodeBitmap : v'.inodeBitmap = v.inodeBitmap
  bits : ∀ g i, v.blockBitmap g i = true → v'.blockBitmap g i = true

theorem SameDisk.grows (h : v.SameDisk v') : v.Grows v' := by
  obtain ⟨mem, -, rfl⟩ := h
  exact ⟨rfl, rfl, rfl, fun _ _ h => h⟩

theorem Grows.trans (h : v.Grows v') (h' : v'.Grows v'') : v.Grows v'' where
  data := h'.data.trans h.data
  inodes := h'.inodes.trans h.inodes
  inodeBitmap := h'.inodeBitmap.trans h.inodeBitmap
  bits g i hbit := h'.bits g i (h.bits g i hbit)

theorem Padded.grows (hpad : v.Padded fs) (h : v.Grows v') : v'.Padded fs :=
  fun g i hi hlast => h.bits g i (hpad g i hi hlast)

/-- Only blocks of `S` become free. -/
structure Frees (fs : Layout) (S : Nat → Prop) (v v' : Volume) : Prop where
  data : v'.data = v.data
  inodes : v'.inodes = v.inodes
  inodeBitmap : v'.inodeBitmap = v.inodeBitmap
  mem : v'.mem <:+ v.mem
  bits : ∀ g i, v.blockBitmap g i = true → v'.blockBitmap g i = true ∨
    ∃ b, S b ∧ fs.InRange b ∧ fs.group b = g ∧ fs.index b = i

variable {S : Nat → Prop}

theorem SameDisk.frees (h : v.SameDisk v') : Frees fs S v v' := by
  obtain ⟨mem, hmem, rfl⟩ := h
  exact ⟨rfl, rfl, rfl, hmem, fun _ _ => .inl⟩

section

variable (h : Frees fs S v v')
include h

theorem Frees.trans (h' : Frees fs S v' v'') : Frees fs S v v'' where
  data := h'.data.trans h.data
  inodes := h'.inodes.trans h.inodes
  inodeBitmap := h'.inodeBitmap.trans h.inodeBitmap
  mem := h'.mem.trans h.mem
  bits g i hbit := by
    rcases h.bits g i hbit with hbit | hfreed
    · exact h'.bits g i hbit
    · exact .inr hfreed

theorem Frees.mono {T} (hsub : ∀ b, S b → T b) : Frees fs T v v' where
  __ := h
  bits g i hbit := (h.bits g i hbit).imp id fun ⟨b, hb, hrest⟩ => ⟨b, hsub b hb, hrest⟩

/-- The bits after the last block are not those of a block. -/
theorem Padded.frees (hpad : v.Padded fs) : v'.Padded fs := by
  intro g i hi hlast
  rcases h.bits g i (hpad g i hi hlast) with hbit | ⟨b, -, hrng, rfl, rfl⟩
  · exact hbit
  · rw [fs.blockOf_bit hrng.1] at hlast
    exact absurd hrng.2 (Nat.not_lt_of_le hlast)

/-- Other blocks stay in use. -/
theorem Frees.used (hb : fs.firstDataBlock ≤ b) (hnot : ¬ S b)
    (hused : v.used fs b = true) : v'.used fs b = true := by
  rcases h.bits _ _ hused with hbit | ⟨b', hb', hrng, hgroup, hindex⟩
  · exact hbit
  · have hsame : b' = b := by
      rw [← fs.blockOf_bit hrng.1, ← fs.blockOf_bit hb, hgroup, hindex]
    exact absurd (hsame ▸ hb') hnot

end

/-- Nothing is written, and the blocks in use stay in use. -/
structure Quiet (fs : Layout) (v v' : Volume) : Prop where
  data : v'.data = v.data
  inodes : v'.inodes = v.inodes
  inodeBitmap : v'.inodeBitmap = v.inodeBitmap
  used : ∀ b, fs.InRange b → v.used fs b = true → v'.used fs b = true
  padded : v.Padded fs → v'.Padded fs

theorem Grows.quiet (h : v.Grows v') : Quiet fs v v' :=
  ⟨h.data, h.inodes, h.inodeBitmap, fun _ _ => h.bits _ _, fun hpad => hpad.grows h⟩

end Volume

/-! ### Allocation -/

open Volume

/-- What an allocation returns: zero, or a block that was free. -/
structure Allocated (fs : Layout) (v : Volume) (b : Nat) (v' : Volume) : Prop where
  grows : v.Grows v'
  block : b ≠ 0 → fs.InRange b ∧ v.used fs b = false ∧ v'.used fs b = true

theorem Allocated.none (h : v.Grows v') : Allocated fs v 0 v' := ⟨h, absurd rfl⟩

theorem Allocated.after (hgrows : v.Grows v') (h : Allocated fs v' b v'') :
    Allocated fs v b v'' where
  grows := hgrows.trans h.grows
  block hb := by
    obtain ⟨hrng, hfree, hused⟩ := h.block hb
    refine ⟨hrng, ?_, hused⟩
    rw [← Bool.not_eq_true] at hfree ⊢
    exact fun hold => hfree (hgrows.bits _ _ hold)

theorem setBlockBit_grows (v : Volume) (g i n : Nat) :
    v.Grows ((v.setBlockBit g i true).setFreeBlocks g n) where
  data := rfl
  inodes := rfl
  inodeBitmap := rfl
  bits g' i' hbit := by
    by_cases hg : g' = g
    · subst hg
      by_cases hi : i' = i
      · subst hi
        simp [setBlockBit, setFreeBlocks]
      · simpa [setBlockBit, setFreeBlocks, hi] using hbit
    · simpa [setBlockBit, setFreeBlocks, hg] using hbit

theorem allocBlockInGroup_spec (hpad : v.Padded fs) (g : Nat) :
    Allocated fs v (allocBlockInGroup fs v g).1 (allocBlockInGroup fs v g).2 := by
  unfold allocBlockInGroup
  split
  · exact .none (SameDisk.refl v).grows
  rcases hk : v.kmalloc with ⟨_ | _, v1⟩ <;> have hsame := (sameDisk_kmalloc hk).grows
  · exact .none hsame
  simp only [if_true]
  split
  · exact .none hsame
  rename_i i hfind
  have hi : i < fs.blocksPerGroup := mem_range.mp (mem_of_find?_eq_some hfind)
  have hfree : v1.blockBitmap g i = false := by simpa using find?_some hfind
  -- A free bit is not one after the last block.
  have hlast : fs.blockOf g i < fs.blocksCount := by
    by_contra hle
    rw [hpad.grows hsame g i hi (not_lt.mp hle)] at hfree
    cases hfree
  have hmod : fs.blockOf g i % 2 ^ 32 = fs.blockOf g i :=
    Nat.mod_eq_of_lt (hlast.trans fs.blocksCount_lt)
  refine .after hsame ⟨setBlockBit_grows v1 g i _, fun _ => ?_⟩
  change fs.InRange (fs.blockOf g i % 2 ^ 32) ∧ v1.used fs (fs.blockOf g i % 2 ^ 32) = false ∧ _
  rw [hmod]
  refine ⟨⟨Nat.le_add_left _ _, hlast⟩, ?_, ?_⟩
  · rw [used, fs.group_blockOf hi, fs.index_blockOf hi]
    exact hfree
  · change used fs _ (fs.blockOf g i % 2 ^ 32) = true
    rw [hmod, used, fs.group_blockOf hi, fs.index_blockOf hi]
    simp [setBlockBit, setFreeBlocks]

theorem allocBlockIn_spec (hpad : v.Padded fs) (gs : List Nat) :
    Allocated fs v (allocBlockIn fs v gs).1 (allocBlockIn fs v gs).2 := by
  induction gs generalizing v with
  | nil => exact .none (SameDisk.refl v).grows
  | cons g gs ih =>
    have hfirst := allocBlockInGroup_spec hpad g
    rw [allocBlockIn]
    rcases hr : allocBlockInGroup fs v g with ⟨b, v1⟩
    rw [hr] at hfirst
    simp only
    split
    · exact hfirst
    · exact .after hfirst.grows (ih (hpad.grows hfirst.grows))

theorem allocBlock_spec {group} (hpad : v.Padded fs) (hr : allocBlock fs v group = (b, v')) :
    Allocated fs v b v' := by
  have halloc := allocBlockIn_spec hpad (group :: (range fs.groupCount).filter (· ≠ group))
  rwa [← allocBlock, hr] at halloc

theorem freeBlock_frees (fs : Layout) (v : Volume) (b : Nat) :
    Frees fs (· = b) v (freeBlock fs v b) := by
  unfold freeBlock
  split
  · exact (SameDisk.refl v).frees
  rename_i hrng
  obtain ⟨hlo, hhi⟩ := not_or.mp hrng
  rcases hk : v.kmalloc with ⟨_ | _, v1⟩ <;> have hsame := sameDisk_kmalloc hk
  · exact hsame.frees
  refine hsame.frees.trans ⟨rfl, rfl, rfl, suffix_refl _, fun g i hbit => ?_⟩
  by_cases hsame : fs.group b = g ∧ fs.index b = i
  · exact .inr ⟨b, rfl, ⟨not_lt.mp hlo, not_le.mp hhi⟩, hsame⟩
  refine .inl ?_
  change update v1.blockBitmap (fs.group b)
    (update (v1.blockBitmap (fs.group b)) (fs.index b) false) g i = true
  by_cases hg : g = fs.group b
  · subst hg
    rw [update_self, update_of_ne fun hi => hsame ⟨rfl, hi.symm⟩]
    exact hbit
  · rw [update_of_ne hg]
    exact hbit

/-! ### The block of a file -/

/-- The slot in the inode, and the path from there, for a logical block. -/
def slotPath (fs : Layout) (logical : Nat) : Option (Nat × List Nat) :=
  let ptrs := fs.ptrsPerBlock
  if logical < ndirBlocks then some (logical, []) else
  let l := logical - ndirBlocks
  if l < ptrs then some (indBlock, [l]) else
  let l := l - ptrs
  if l < ptrs * ptrs then some (dindBlock, [l / ptrs, l % ptrs]) else
  let l := l - ptrs * ptrs
  if l < ptrs * ptrs * ptrs then
    some (tindBlock, [l / (ptrs * ptrs), l / ptrs % ptrs, l % ptrs])
  else none

/-- Pointers are followed until one is zero. -/
def follow (v : Volume) : Nat → List Nat → Nat
  | b, [] => b
  | b, k :: ks => if b = 0 then 0 else follow v (v.word b k) ks

/-- The block of a file that holds a logical block, or zero. -/
def mapBlock (fs : Layout) (v : Volume) (inode : Inode) (logical : Nat) : Nat :=
  match slotPath fs logical with
  | none => 0
  | some (t, path) => follow v (inode.iBlock t) path

theorem follow_zero (v : Volume) (path : List Nat) : follow v 0 path = 0 := by
  cases path <;> rfl

theorem follow_congr (h : v'.data = v.data) (b : Nat) (path : List Nat) :
    follow v' b path = follow v b path := by
  induction path generalizing b with
  | nil => rfl
  | cons k ks ih =>
    have hword : v'.word b k = v.word b k := by rw [word, word, h]
    rw [follow, follow, hword, ih]

theorem mapBlock_congr (h : v'.data = v.data) (inode : Inode) (logical : Nat) :
    mapBlock fs v' inode logical = mapBlock fs v inode logical := by
  unfold mapBlock
  split
  · rfl
  · exact follow_congr h _ _

theorem getBlock_sameDisk (fs : Layout) (v : Volume) (inode : Inode) (logical : Nat) :
    v.SameDisk (getBlock fs v inode logical).2 := by
  rcases hk : v.kmalloc with ⟨ok, v1⟩
  have hsame := sameDisk_kmalloc hk
  have hrefl := SameDisk.refl v
  all_goals
    unfold getBlock
    simp only [hk]
    repeat' split
    all_goals first | exact hrefl | exact hsame

/-- `ext2_get_block` follows the pointers of the inode. -/
theorem getBlock_of_kmalloc (hk : v.kmalloc = (true, v')) (inode : Inode) (logical : Nat) :
    (getBlock fs v inode logical).1 = mapBlock fs v inode logical := by
  obtain ⟨mem, -, rfl⟩ := sameDisk_kmalloc hk
  unfold getBlock mapBlock slotPath
  simp only [hk, if_true]
  by_cases hdirect : logical < ndirBlocks
  · simp [hdirect, follow]
  by_cases hind : logical - ndirBlocks < fs.ptrsPerBlock
  · simp only [hdirect, hind, if_true, if_false, follow, apply_ite Prod.fst]
    rfl
  by_cases hdind : logical - ndirBlocks - fs.ptrsPerBlock < fs.ptrsPerBlock * fs.ptrsPerBlock
  · simp only [hdirect, hind, hdind, if_true, if_false, follow, apply_ite Prod.fst]
    rfl
  by_cases htind : logical - ndirBlocks - fs.ptrsPerBlock - fs.ptrsPerBlock * fs.ptrsPerBlock <
      fs.ptrsPerBlock * fs.ptrsPerBlock * fs.ptrsPerBlock
  · simp only [hdirect, hind, hdind, htind, if_true, if_false, follow, apply_ite Prod.fst]
    rfl
  · simp [hdirect, hind, hdind, htind]

/-- Without memory, `ext2_get_block` says that there is no block. -/
theorem getBlock_eq (fs : Layout) (v : Volume) (inode : Inode) (logical : Nat) :
    (getBlock fs v inode logical).1 = 0 ∨
      (getBlock fs v inode logical).1 = mapBlock fs v inode logical := by
  rcases hk : v.kmalloc with ⟨ok, v1⟩
  cases ok
  case true => exact .inr (getBlock_of_kmalloc hk inode logical)
  case false =>
  by_cases hdirect : logical < ndirBlocks
  · simp [getBlock, mapBlock, slotPath, hdirect, follow]
  refine .inl ?_
  unfold getBlock
  simp only [hk, hdirect, if_false, Bool.false_eq_true]
  repeat' split
  all_goals rfl

/-- What `ext2_get_block` returns is the block of the file, unless it is zero. -/
theorem getBlock_spec {inode logical} (hr : getBlock fs v inode logical = (b, v')) :
    v.SameDisk v' ∧ (b ≠ 0 → mapBlock fs v inode logical = b) := by
  have hdisk := getBlock_sameDisk fs v inode logical
  have heq := getBlock_eq fs v inode logical
  rw [hr] at hdisk heq
  exact ⟨hdisk, fun hne => (heq.resolve_left hne).symm⟩

end Kurios.Ext2
