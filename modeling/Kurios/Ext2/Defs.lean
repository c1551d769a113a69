import Kurios.Base.Bytes
import Kurios.Base.Loop
import Kurios.Base.Word
import Kurios.Fs.Codes

/-!
The ext2 driver (`kernel/fs/ext2.c`): blocks, inodes and files.

A volume is what is on the device: the contents of blocks, the two bitmaps, and the inode
table. The bitmaps and the table stand for the blocks that hold them (`isMeta`), which no
file may contain. Next to it there are the nodes of the VFS, each with a copy of an inode
that is written back by `ext2_sync_inode` when the node is closed.

Transfers succeed. Memory may run out: `mem` is what the coming calls of `kmalloc` will
say, and they all succeed after its end.
-/

namespace Kurios.Ext2

open Base Errno Function List

/-! ### The volume -/

/-- `ext2_fs_t`, as `ext2_mount` computes it from the superblock. -/
structure Layout where
  blockSize : Nat
  blocksPerGroup : Nat
  groupCount : Nat
  firstDataBlock : Nat
  blocksCount : Nat
  inodesPerGroup : Nat
  inodesCount : Nat
  readOnly : Bool
  isMeta : Nat → Bool
  blockSize_pos : 0 < blockSize
  blocksPerGroup_pos : 0 < blocksPerGroup
  inodesPerGroup_pos : 0 < inodesPerGroup
  blocksCount_lt : blocksCount < 2 ^ 32
  pointers_lt : blockSize / 4 * (blockSize / 4) < 2 ^ 32

variable (fs : Layout)

/-- `ptrs_per_block`. -/
def Layout.ptrsPerBlock : Nat := fs.blockSize / 4

/-- The type bits of `i_mode`. -/
inductive FileType where
  | regular
  | directory
  | chardev
  | blkdev
  | fifo
  | socket
  | symlink
deriving DecidableEq, Repr

/-- `ext2_inode_t`. -/
structure Inode where
  iMode : FileType
  iSize : Nat
  iLinksCount : Nat
  iBlocks : Nat
  iBlock : Nat → Nat

structure Volume where
  blockBitmap : Nat → Nat → Bool
  freeBlocks : Nat → Nat
  inodeBitmap : Nat → Nat → Bool
  freeInodes : Nat → Nat
  inodes : Nat → Inode
  data : Nat → Buffer
  mem : List Bool

/-- `EXT2_NDIR_BLOCKS` and the slots of the indirect blocks. -/
def ndirBlocks : Nat := 12
def indBlock : Nat := 12
def dindBlock : Nat := 13
def tindBlock : Nat := 14

/-- `EXT2_FIRST_INO`. -/
def firstIno : Nat := 11

namespace Volume

section

variable (v : Volume)

/-- Whether the next `kmalloc` succeeds. -/
def kmalloc : Bool × Volume :=
  match v.mem with
  | [] => (true, v)
  | ok :: mem => (ok, { v with mem := mem })

/-- `ext2_write_block`. -/
def writeBlock (b : Nat) (buf : Buffer) : Volume :=
  { v with data := update v.data b buf }

/-- The `k`th block number in a block. -/
def word (b k : Nat) : Nat := load (v.data b) (4 * k) 4

def setWord (b k x : Nat) : Volume := v.writeBlock b (store (v.data b) (4 * k) 4 x)

/-- The bitmap with one bit changed. -/
def setBlockBit (g i : Nat) (bit : Bool) : Volume :=
  { v with
    blockBitmap := update v.blockBitmap g (update (v.blockBitmap g) i bit) }

def setInodeBit (g i : Nat) (bit : Bool) : Volume :=
  { v with
    inodeBitmap := update v.inodeBitmap g (update (v.inodeBitmap g) i bit) }

def setFreeBlocks (g n : Nat) : Volume :=
  { v with freeBlocks := update v.freeBlocks g n }

def setFreeInodes (g n : Nat) : Volume :=
  { v with freeInodes := update v.freeInodes g n }

end

end Volume

/-! ### Inodes -/

/-- `ext2_read_inode`. -/
def readInode (v : Volume) (ino : Nat) : Option Inode × Volume :=
  if ino = 0 ∨ ino > fs.inodesCount then (none, v) else
  let (ok, v) := v.kmalloc
  if ok then (some (v.inodes ino), v) else (none, v)

/-- `ext2_write_inode`. -/
def writeInode (v : Volume) (ino : Nat) (inode : Inode) : Int × Volume :=
  if fs.readOnly then (vfsEinval, v) else
  if ino = 0 ∨ ino > fs.inodesCount then (vfsEinval, v) else
  let (ok, v) := v.kmalloc
  if ok then (vfsOk, { v with inodes := update v.inodes ino inode })
  else (vfsEnomem, v)

/-- `ext2_alloc_inode_in_group`. -/
def allocInodeInGroup (v : Volume) (g : Nat) : Nat × Volume :=
  if v.freeInodes g = 0 then (0, v) else
  let (ok, v) := v.kmalloc
  if ok then
    match (range fs.inodesPerGroup).find? fun i => !v.inodeBitmap g i with
    | none => (0, v)
    | some i =>
      (g * fs.inodesPerGroup + i + 1, (v.setInodeBit g i true).setFreeInodes g (v.freeInodes g - 1))
  else (0, v)

/-- The first group that has an inode. -/
def allocInodeIn (fs : Layout) (v : Volume) : List Nat → Nat × Volume
  | [] => (0, v)
  | g :: gs =>
    let (ino, v) := allocInodeInGroup fs v g
    if ino ≠ 0 then (ino, v) else allocInodeIn fs v gs

/-- `ext2_alloc_inode`. -/
def allocInode (v : Volume) (preferred : Nat) : Nat × Volume :=
  allocInodeIn fs v (preferred :: (range fs.groupCount).filter (· ≠ preferred))

/-- `ext2_free_inode`. -/
def freeInode (v : Volume) (ino : Nat) : Volume :=
  if ino < firstIno ∨ ino > fs.inodesCount then v else
  let g := (ino - 1) / fs.inodesPerGroup
  let i := (ino - 1) % fs.inodesPerGroup
  let (ok, v) := v.kmalloc
  if ok then (v.setInodeBit g i false).setFreeInodes g ((v.freeInodes g + 1) % 2 ^ 16) else v

/-! ### Blocks -/

/-- `ext2_alloc_block_in_group`. -/
def allocBlockInGroup (v : Volume) (g : Nat) : Nat × Volume :=
  if v.freeBlocks g = 0 then (0, v) else
  let (ok, v) := v.kmalloc
  if ok then
    match (range fs.blocksPerGroup).find? fun i => !v.blockBitmap g i with
    | none => (0, v)
    | some i =>
      ((g * fs.blocksPerGroup + i + fs.firstDataBlock) % 2 ^ 32,
        (v.setBlockBit g i true).setFreeBlocks g (v.freeBlocks g - 1))
  else (0, v)

/-- The first group that has a block. -/
def allocBlockIn (fs : Layout) (v : Volume) : List Nat → Nat × Volume
  | [] => (0, v)
  | g :: gs =>
    let (b, v) := allocBlockInGroup fs v g
    if b ≠ 0 then (b, v) else allocBlockIn fs v gs

/-- `ext2_alloc_block`. -/
def allocBlock (v : Volume) (preferred : Nat) : Nat × Volume :=
  allocBlockIn fs v (preferred :: (range fs.groupCount).filter (· ≠ preferred))

/-- `ext2_free_block`. -/
def freeBlock (v : Volume) (b : Nat) : Volume :=
  if b < fs.firstDataBlock ∨ b ≥ fs.blocksCount then v else
  let g := (b - fs.firstDataBlock) / fs.blocksPerGroup
  let i := (b - fs.firstDataBlock) % fs.blocksPerGroup
  let (ok, v) := v.kmalloc
  if ok then (v.setBlockBit g i false).setFreeBlocks g ((v.freeBlocks g + 1) % 2 ^ 16) else v

/-- `ext2_get_block`. -/
def getBlock (v : Volume) (inode : Inode) (logical : Nat) : Nat × Volume :=
  let ptrs := fs.ptrsPerBlock
  if logical < ndirBlocks then (inode.iBlock logical, v) else
  let logical := logical - ndirBlocks
  if logical < ptrs then
    if inode.iBlock indBlock = 0 then (0, v) else
    let (ok, v) := v.kmalloc
    if ok then (v.word (inode.iBlock indBlock) logical, v) else (0, v)
  else
  let logical := logical - ptrs
  if logical < ptrs * ptrs then
    if inode.iBlock dindBlock = 0 then (0, v) else
    let (ok, v) := v.kmalloc
    if ok then
      let ind := v.word (inode.iBlock dindBlock) (logical / ptrs)
      if ind = 0 then (0, v) else (v.word ind (logical % ptrs), v)
    else (0, v)
  else
  let logical := logical - ptrs * ptrs
  if logical < ptrs * ptrs * ptrs then
    if inode.iBlock tindBlock = 0 then (0, v) else
    let (ok, v) := v.kmalloc
    if ok then
      let dind := v.word (inode.iBlock tindBlock) (logical / (ptrs * ptrs))
      if dind = 0 then (0, v) else
      let ind := v.word dind (logical / ptrs % ptrs)
      if ind = 0 then (0, v) else (v.word ind (logical % ptrs), v)
    else (0, v)
  else (0, v)

/-- A new block of zeros, which `ext2_set_block` needs at three places. -/
def allocZeroed (v : Volume) (group : Nat) : Int × Nat × Volume :=
  let (b, v) := allocBlock fs v group
  if b = 0 then (vfsEnospc, 0, v) else
  let (ok, v) := v.kmalloc
  if ok then (vfsOk, b, v.writeBlock b fun _ => 0) else (vfsEnomem, 0, freeBlock fs v b)

/-- `i_blocks += block_size / 512`. -/
def Inode.addBlock (inode : Inode) : Inode :=
  { inode with iBlocks := (inode.iBlocks + fs.blockSize / 512) % 2 ^ 32 }

def Inode.subBlock (inode : Inode) : Inode :=
  { inode with iBlocks := sub32 inode.iBlocks (fs.blockSize / 512) }

def Inode.setSlot (inode : Inode) (t b : Nat) : Inode :=
  { inode with iBlock := update inode.iBlock t b }

/-- The indirect block in a slot of the inode, allocated if needed. -/
def slotTable (v : Volume) (inode : Inode) (t group : Nat) : Int × Volume × Inode :=
  if inode.iBlock t = 0 then
    let (err, b, v) := allocZeroed fs v group
    if err = vfsOk then (vfsOk, v, (inode.setSlot t b).addBlock fs) else (err, v, inode)
  else (vfsOk, v, inode)

/-- `ext2_set_block`. -/
def setBlock (v : Volume) (inode : Inode) (logical phys group : Nat) : Int × Volume × Inode :=
  let ptrs := fs.ptrsPerBlock
  if logical < ndirBlocks then (vfsOk, v, inode.setSlot logical phys) else
  let logical := logical - ndirBlocks
  if logical < ptrs then
    let (err, v, inode) := slotTable fs v inode indBlock group
    if err ≠ vfsOk then (err, v, inode) else
    let (ok, v) := v.kmalloc
    if ok then (vfsOk, v.setWord (inode.iBlock indBlock) logical phys, inode)
    else (vfsEnomem, v, inode)
  else
  let logical := logical - ptrs
  if logical < ptrs * ptrs then
    let (err, v, inode) := slotTable fs v inode dindBlock group
    if err ≠ vfsOk then (err, v, inode) else
    let (ok, v) := v.kmalloc
    if !ok then (vfsEnomem, v, inode) else
    let dind := inode.iBlock dindBlock
    if v.word dind (logical / ptrs) = 0 then
      let (err, b, v) := allocZeroed fs v group
      if err ≠ vfsOk then (err, v, inode) else
      let v := v.setWord dind (logical / ptrs) b
      (vfsOk, v.setWord b (logical % ptrs) phys, inode.addBlock fs)
    else (vfsOk, v.setWord (v.word dind (logical / ptrs)) (logical % ptrs) phys, inode)
  else (vfsEinval, v, inode)

/-! ### Files -/

/-- A `vfs_node_t` with its `ext2_inode_info_t`. -/
structure Node where
  ino : Nat
  inode : Inode
  size : Nat
  dirty : Bool

/-- `ext2_create_node`. -/
def createNode (v : Volume) (ino : Nat) (inode : Inode) : Option Node × Volume :=
  let (ok, v) := v.kmalloc
  if !ok then (none, v) else
  let (ok, v) := v.kmalloc
  if ok then (some ⟨ino, inode, inode.iSize, false⟩, v) else (none, v)

/-- `ext2_sync_inode`, which is all that `ext2_file_close` and `ext2_dir_close` do. -/
def syncInode (v : Volume) (node : Node) : Volume × Node :=
  if !node.dirty then (v, node) else
  let (err, v) := writeInode fs v node.ino node.inode
  if err = vfsOk then (v, { node with dirty := false }) else (v, node)

/-- The group of an inode. -/
def Layout.inodeGroup (ino : Nat) : Nat := (ino - 1) / fs.inodesPerGroup

/-- The loop of `ext2_file_write`; the result is there when it returns from within. Every
round writes a byte at least, so `size` rounds are enough. -/
def writeLoop (fs : Layout) (offset : Nat) :
    Nat → Nat → Nat → Buffer → Volume → Node → Option Int × Volume × Node
  | 0, _, _, _, v, node => (none, v, node)
  | fuel + 1, pos, remaining, src, v, node =>
    if remaining = 0 then (none, v, node) else
    let logical := pos / fs.blockSize % 2 ^ 32
    let blockOffset := pos % fs.blockSize
    let chunk := min (fs.blockSize - blockOffset) remaining
    let group := fs.inodeGroup node.ino
    let (phys, v) := getBlock fs v node.inode logical
    if phys = 0 then
      let (phys, v) := allocBlock fs v group
      if phys = 0 then
        if pos > offset then
          let size := max pos node.size
          (some (pos - offset : Nat), v,
            { node with
              size := size
              inode := { node.inode with iSize := size % 2 ^ 32 }
              dirty := true })
        else (some vfsEnospc, v, node)
      else
        let (err, v, inode) := setBlock fs v node.inode logical phys group
        if err ≠ vfsOk then (some err, freeBlock fs v phys, { node with inode := inode }) else
        -- A new block is filled with zeros around what is written.
        let v := v.writeBlock phys (copy (fun _ => 0) blockOffset chunk src)
        writeLoop fs offset fuel (u64 (pos + chunk)) (remaining - chunk) (fun i => src (chunk + i))
          v { node with inode := inode.addBlock fs }
    else
      let v := v.writeBlock phys (copy (v.data phys) blockOffset chunk src)
      writeLoop fs offset fuel (u64 (pos + chunk)) (remaining - chunk) (fun i => src (chunk + i))
        v node

/-- `ext2_file_write`. -/
def fileWrite (v : Volume) (node : Node) (src : Buffer) (size offset : Nat) : Int × Volume × Node :=
  if fs.readOnly then (vfsEinval, v, node) else
  let (ok, v) := v.kmalloc
  if !ok then (vfsEnomem, v, node) else
  match writeLoop fs offset size offset size src v node with
  | (some result, v, node) => (result, v, node)
  | (none, v, node) =>
    let node :=
      if u64 (offset + size) > node.inode.iSize then
        { node with
          inode := { node.inode with iSize := u64 (offset + size) % 2 ^ 32 }
          size := u64 (offset + size) % 2 ^ 32 }
      else node
    (size, v, { node with dirty := true })

/-- `(i_size + block_size - 1) / block_size` on 32-bit numbers. -/
def Inode.numBlocks (inode : Inode) : Nat :=
  (inode.iSize + fs.blockSize - 1) % 2 ^ 32 / fs.blockSize

/-- The blocks of a file from `first` to its end are freed. The pointers to them stay. -/
def freeBlocksFrom (v : Volume) (inode : Inode) (first : Nat) : Volume × Inode :=
  forRange first (inode.numBlocks fs) (fun b (p : Volume × Inode) =>
    let (phys, v) := getBlock fs p.1 inode b
    if phys ≠ 0 then (freeBlock fs v phys, p.2.subBlock fs) else (v, p.2)) (v, inode)

/-- `ext2_file_truncate`. -/
def fileTruncate (v : Volume) (node : Node) (size : Nat) : Int × Volume × Node :=
  if fs.readOnly then (vfsEinval, v, node) else
  let (v, inode) :=
    if size < node.inode.iSize then
      freeBlocksFrom fs v node.inode ((size + fs.blockSize - 1) / fs.blockSize)
    else (v, node.inode)
  (vfsOk, v,
    { node with inode := { inode with iSize := size % 2 ^ 32 }, size := size, dirty := true })

end Kurios.Ext2
