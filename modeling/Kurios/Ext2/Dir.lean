import Kurios.Ext2.Defs

/-!
Directories of the ext2 driver, and the calls of the VFS on a mounted volume.

A directory block is a sequence of records. A record starts with an inode number (zero when
it is unused), its own length `rec_len`, the length of the name and a type, and the name
follows. The functions below scan a block record by record, as the source does, with as
many rounds as a block has bytes.
-/

namespace Kurios.Ext2

open Base Errno

/-! ### Records -/

/-- `sizeof(ext2_dir_entry_t)`. -/
def headerSize : Nat := 8

def deInode (buf : Buffer) (off : Nat) : Nat := load buf off 4
def deRecLen (buf : Buffer) (off : Nat) : Nat := load buf (off + 4) 2
def deNameLen (buf : Buffer) (off : Nat) : Nat := load buf (off + 6) 1

/-- The name of the record at `off`. -/
def deName (buf : Buffer) (off : Nat) : List UInt8 :=
  (List.range (deNameLen buf off)).map fun i => buf (off + headerSize + i)

/-- The size of a record with a name of `n` bytes, a multiple of four. -/
def entrySize (n : Nat) : Nat := (headerSize + n + 3) / 4 * 4

/-- A record in use with this name. -/
def isEntry (buf : Buffer) (off : Nat) (name : List UInt8) : Bool :=
  deInode buf off ≠ 0 ∧ deName buf off = name

/-- The record with a name, from `off` on. The record in use before it is returned too. -/
def findEntry (bs : Nat) (buf : Buffer) (name : List UInt8) :
    Nat → Nat → Option Nat → Option (Nat × Option Nat)
  | 0, _, _ => none
  | fuel + 1, off, prev =>
    if off ≥ bs then none else
    if deRecLen buf off = 0 then none else
    if isEntry buf off name then some (off, prev) else
    let prev := if deInode buf off ≠ 0 then some off else prev
    findEntry bs buf name fuel (off + deRecLen buf off) prev

/-- A new record at `off`. -/
def putEntry (buf : Buffer) (off inodeNum recLen : Nat) (name : List UInt8) (fileType : Nat) :
    Buffer :=
  let buf := store buf off 4 inodeNum
  let buf := store buf (off + 4) 2 recLen
  let buf := store buf (off + 6) 1 name.length
  let buf := store buf (off + 7) 1 fileType
  copy buf (off + headerSize) name.length fun i => name.getD i 0

/-- The first record from `off` on with room for a name, and the block with the name in it. -/
def placeEntry (bs : Nat) (buf : Buffer) (inodeNum : Nat) (name : List UInt8) (fileType : Nat) :
    Nat → Nat → Option Buffer
  | 0, _ => none
  | fuel + 1, off =>
    if off ≥ bs then none else
    if deRecLen buf off = 0 then none else
    let actual := if deInode buf off = 0 then 0 else entrySize (deNameLen buf off) % 2 ^ 16
    let available := sub16 (deRecLen buf off) actual
    if available ≥ entrySize name.length % 2 ^ 16 then
      let used := deInode buf off ≠ 0
      let buf := if used then store buf (off + 4) 2 actual else buf
      let newOff := if used then off + actual else off
      -- `new_de->inode` is written before `de->inode` is read again, and may be the same.
      let buf := store buf newOff 4 inodeNum
      let recLen := if deInode buf off = 0 then deRecLen buf off else available
      some (putEntry buf newOff inodeNum recLen name fileType)
    else placeEntry bs buf inodeNum name fileType fuel (off + deRecLen buf off)

/-- The block without the record at `off`. -/
def dropEntry (buf : Buffer) (off : Nat) (prev : Option Nat) : Buffer :=
  match prev with
  | some p => store buf (p + 4) 2 ((deRecLen buf p + deRecLen buf off) % 2 ^ 16)
  | none => store buf off 4 0

/-! ### Directories -/

variable (fs : Layout)

/-- The logical blocks `pos / block_size` of the loops over a directory. -/
def dirBlocks (inode : Inode) : List Nat :=
  List.range ((inode.iSize + fs.blockSize - 1) / fs.blockSize)

/-- The first block of a directory where `f` finds something, with its number. -/
def scanBlocks {α : Type} (fs : Layout) (inode : Inode) (f : Buffer → Option α) :
    Volume → List Nat → Option (Nat × α) × Volume
  | v, [] => (none, v)
  | v, l :: ls =>
    let (phys, v) := getBlock fs v inode l
    if phys = 0 then scanBlocks fs inode f v ls else
    match f (v.data phys) with
    | some a => (some (phys, a), v)
    | none => scanBlocks fs inode f v ls

/-- The inode number under a name, as `ext2_dir_finddir` finds it. -/
def lookupName (v : Volume) (inode : Inode) (name : List UInt8) : Option Nat × Volume :=
  let (ok, v) := v.kmalloc
  if !ok then (none, v) else
  match scanBlocks fs inode (fun buf =>
      (findEntry fs.blockSize buf name fs.blockSize 0 none).map fun r => deInode buf r.1) v
      (dirBlocks fs inode) with
  | (some (_, ino), v) => (some ino, v)
  | (none, v) => (none, v)

/-- `ext2_dir_finddir`. -/
def dirFinddir (v : Volume) (node : Node) (name : List UInt8) : Option Node × Volume :=
  match lookupName fs v node.inode name with
  | (none, v) => (none, v)
  | (some ino, v) =>
    match readInode fs v ino with
    | (none, v) => (none, v)
    | (some inode, v) => createNode v ino inode

/-- The block `ext2_add_dir_entry` makes for a name when there is no room. -/
def freshDirBlock (inodeNum : Nat) (name : List UInt8) (fileType : Nat) : Buffer :=
  putEntry (fun _ => 0) 0 inodeNum (fs.blockSize % 2 ^ 16) name fileType

section

variable (v : Volume) (parent : Node) (inodeNum : Nat) (name : List UInt8)

/-- The end of `ext2_add_dir_entry`: the directory gets a new block for the name. -/
def appendDirBlock (fileType : Nat) : Int × Volume × Node :=
  let group := fs.inodeGroup parent.ino
  let (b, v) := allocBlock fs v group
  if b = 0 then (vfsEnospc, v, parent) else
  let v := v.writeBlock b (freshDirBlock fs inodeNum name fileType)
  let logical := parent.inode.iSize / fs.blockSize
  let (err, v, inode) := setBlock fs v parent.inode logical b group
  if err ≠ vfsOk then (err, freeBlock fs v b, { parent with inode := inode }) else
  let size := (inode.iSize + fs.blockSize) % 2 ^ 32
  (vfsOk, v,
    { parent with
      inode := { inode.addBlock fs with iSize := size }
      size := size
      dirty := true })

/-- `ext2_add_dir_entry`. -/
def addDirEntry (fileType : Nat) : Int × Volume × Node :=
  let (ok, v) := v.kmalloc
  if !ok then (vfsEnomem, v, parent) else
  match scanBlocks fs parent.inode (fun buf =>
      placeEntry fs.blockSize buf inodeNum name fileType fs.blockSize 0) v
      (dirBlocks fs parent.inode) with
  | (some (phys, buf), v) => (vfsOk, v.writeBlock phys buf, parent)
  | (none, v) => appendDirBlock fs v parent inodeNum name fileType

end

/-- `ext2_remove_dir_entry`. -/
def removeDirEntry (v : Volume) (parent : Node) (name : List UInt8) : Int × Volume :=
  let (ok, v) := v.kmalloc
  if !ok then (vfsEnomem, v) else
  match scanBlocks fs parent.inode (fun buf =>
      (findEntry fs.blockSize buf name fs.blockSize 0 none).map fun r => dropEntry buf r.1 r.2) v
      (dirBlocks fs parent.inode) with
  | (some (phys, buf), v) => (vfsOk, v.writeBlock phys buf)
  | (none, v) => (vfsEnoent, v)

/-- `vfs_type_to_ext2_ftype`. -/
def FileType.code : FileType → Nat
  | .regular => 1
  | .directory => 2
  | .chardev => 3
  | .blkdev => 4
  | .fifo => 5
  | .socket => 6
  | .symlink => 7

/-- The inode `ext2_dir_create` writes. -/
def newInode (type : FileType) : Inode where
  iMode := type
  iSize := 0
  iLinksCount := 1
  iBlocks := 0
  iBlock := fun _ => 0

/-- `ext2_dir_create`. -/
def dirCreate (v : Volume) (parent : Node) (name : List UInt8) (type : FileType) :
    Int × Volume × Node :=
  if fs.readOnly then (vfsEinval, v, parent) else
  match dirFinddir fs v parent name with
  | (some _, v) => (vfsEexist, v, parent)
  | (none, v) =>
    let (ino, v) := allocInode fs v (fs.inodeGroup parent.ino)
    if ino = 0 then (vfsEnospc, v, parent) else
    let (err, v) := writeInode fs v ino (newInode type)
    if err ≠ vfsOk then (vfsEio, freeInode fs v ino, parent) else
    let (err, v, parent) := addDirEntry fs v parent ino name type.code
    if err ≠ vfsOk then (err, freeInode fs v ino, parent) else (vfsOk, v, parent)

/-- What `ext2_dir_unlink` does with the inode once its name is removed. -/
def dropLink (v : Volume) (ino : Nat) (inode : Inode) : Volume :=
  let links := sub16 inode.iLinksCount 1
  if links = 0 then freeInode fs (freeBlocksFrom fs v inode 0).1 ino
  else (writeInode fs v ino { inode with iLinksCount := links }).2

/-- `ext2_dir_unlink`. -/
def dirUnlink (v : Volume) (parent : Node) (name : List UInt8) : Int × Volume :=
  if fs.readOnly then (vfsEinval, v) else
  match dirFinddir fs v parent name with
  | (none, v) => (vfsEnoent, v)
  | (some target, v) =>
    if target.inode.iMode = .directory then (vfsEisdir, v) else
    let (err, v) := removeDirEntry fs v parent name
    if err ≠ vfsOk then (err, v) else (vfsOk, dropLink fs v target.ino target.inode)

/-! ### Histories -/

/-- A mounted volume, and the nodes at the addresses `addrs`. -/
structure Mount where
  vol : Volume
  addrs : Finset Nat
  node : Nat → Node

/-- The calls of the VFS, with the addresses of nodes; `new` is for a new one. -/
inductive Call where
  | lookup (parent : Nat) (name : List UInt8) (new : Nat)
  | write (n : Nat) (src : Buffer) (size offset : Nat)
  | truncate (n size : Nat)
  | create (parent : Nat) (name : List UInt8) (type : FileType)
  | unlink (parent : Nat) (name : List UInt8)
  | close (n : Nat)
  | free (n : Nat)

namespace Mount

/-- The volume and one node are changed. -/
def update (s : Mount) (v : Volume) (n : Nat) (node : Node) : Mount :=
  { s with vol := v, node := Function.update s.node n node }

/-- There is a node at this address, with the operations of a type. -/
def Has (s : Mount) (n : Nat) (type : FileType) : Prop :=
  n ∈ s.addrs ∧ (s.node n).inode.iMode = type
deriving Decidable

/-- One call, on a node that exists and has the operation. -/
def step (s : Mount) : Call → Option Mount
  | .lookup parent name new =>
    if s.Has parent .directory ∧ new ∉ s.addrs then
      match dirFinddir fs s.vol (s.node parent) name with
      | (none, v) => some { s with vol := v }
      | (some node, v) => some { s.update v new node with addrs := insert new s.addrs }
    else none
  | .write n src size offset =>
    if s.Has n .regular then
      let (_, v, node) := fileWrite fs s.vol (s.node n) src size offset
      some (s.update v n node)
    else none
  | .truncate n size =>
    if s.Has n .regular then
      let (_, v, node) := fileTruncate fs s.vol (s.node n) size
      some (s.update v n node)
    else none
  | .create parent name type =>
    if s.Has parent .directory then
      let (_, v, node) := dirCreate fs s.vol (s.node parent) name type
      some (s.update v parent node)
    else none
  | .unlink parent name =>
    if s.Has parent .directory then
      some { s with vol := (dirUnlink fs s.vol (s.node parent) name).2 }
    else none
  | .close n =>
    if n ∈ s.addrs then
      let (v, node) := syncInode fs s.vol (s.node n)
      some (s.update v n node)
    else none
  | .free n => some { s with addrs := s.addrs.erase n }

end Mount

end Kurios.Ext2
