import Kurios.Fat32.Defs

/-!
Directories and files of the FAT32 driver (`kernel/fs/fat32.c`).

`dirSlots` is what `fat32_iterate_dir` shows its callback: the entries of a directory up to
the first end mark, each with its cluster and its index, which counts from the start of the
directory. The searches run over this list.
-/

namespace Kurios.Fat32

open Errno Function List

/-! ### Reading a directory -/

/-- An entry as the callback sees it. -/
structure Slot where
  cluster : Nat
  index : Nat
  entry : Dirent
deriving DecidableEq, Repr

variable (fs : Layout)

/-- The entries of one cluster, up to an end mark. -/
def clusterSlots (v : Volume) (c base : Nat) : List Slot :=
  ((range fs.entriesPerCluster).takeWhile fun i => (v.dirs c i).first ≠ direntEnd).map
    fun i => ⟨c, base + i, v.dirs c i⟩

/-- The cluster holds an end mark. -/
def HasEnd (v : Volume) (c : Nat) : Prop :=
  ∃ i < fs.entriesPerCluster, (v.dirs c i).first = direntEnd

instance (fs : Layout) (v : Volume) (c : Nat) : Decidable (HasEnd fs v c) :=
  inferInstanceAs (Decidable (∃ i < _, _))

/-- `fat32_iterate_dir`: the entries, and whether the walk ends after them. -/
def dirSlots (fs : Layout) (v : Volume) : Nat → Nat → Nat → List Slot × Bool
  | 0, _, _ => ([], false)
  | fuel + 1, c, base =>
    if ¬ IsValid c then ([], true)
    else if HasEnd fs v c then (clusterSlots fs v c base, true)
    else
      let rest := dirSlots fs v fuel (getNext v c) (base + fs.entriesPerCluster)
      (clusterSlots fs v c base ++ rest.1, rest.2)

/-- The long name that `fat32_find_callback` collects: a buffer of bytes. -/
abbrev LongName := Nat → Nat

/-- The buffer read as a C string. -/
def longString (buf : LongName) : List Nat :=
  ((range (nameMax + 1)).map buf).takeWhile (· ≠ 0)

/-- The characters of an entry go into the buffer from `pos` on, up to a zero or padding. -/
def putChars (buf : LongName) : Nat → List Nat → LongName
  | _, [] => buf
  | pos, c :: cs =>
    if pos < nameMax ∧ c ≠ 0 ∧ c ≠ 0xFFFF then
      putChars (update buf pos (if c < 128 then c else 63)) (pos + 1) cs
    else buf

/-- What an entry of a long name does to the buffer. The first entry, the one with the last
characters, clears it. An order of 0, which no driver writes, would write before the buffer. -/
def addLong (buf : LongName) (order : Nat) (chars : List Nat) : LongName :=
  let last := order.testBit 6
  let buf := if last then fun _ => 0 else buf
  let order := if last then order - lfnLast else order
  if order = 0 then buf else putChars buf ((order - 1) * lfnChars) chars

/-- The entry of the slot has this name, `buf` being the long name before it. -/
def Matches (buf : LongName) (name shortname : List Nat) : Prop :=
  (buf 0 ≠ 0 ∧ SameName (longString buf) name) ∨ SameName (shortToName shortname) name
deriving Decidable

/-- `fat32_find_callback` over a list of entries. Free entries and the volume label leave the
buffer as it is. -/
def findIn (name : List Nat) : LongName → List Slot → Option Slot
  | _, [] => none
  | buf, s :: ss =>
    if s.entry.first = direntFree then findIn name buf ss
    else
      match s.entry with
      | .long order _ chars => findIn name (addLong buf order chars) ss
      | .short shortname .. =>
        if s.entry.isLabel then findIn name buf ss
        else if Matches buf name shortname then some s
        else findIn name (fun _ => 0) ss

/-- `fat32_find_in_dir`. -/
def findInDir (v : Volume) (dirCluster : Nat) (name : List Nat) : Option (Option Slot) :=
  let slots := dirSlots fs v clusterLimit dirCluster 0
  match findIn name (fun _ => 0) slots.1 with
  | some s => some (some s)
  | none => if slots.2 then some none else none

/-! ### Adding and removing entries -/

/-- `fat32_find_free_callback` over a list of entries: the first entry of enough free ones in
a row. -/
def findFree (needed : Nat) : Nat → Option Slot → List Slot → Option Slot
  | _, _, [] => none
  | consecutive, start, s :: ss =>
    if s.entry.first = direntFree ∨ s.entry.first = direntEnd then
      let start := if consecutive = 0 then some s else start
      if consecutive + 1 ≥ needed ∨ s.entry.first = direntEnd then start
      else findFree needed (consecutive + 1) start ss
    else findFree needed 0 start ss

/-- The search of a directory for free entries. -/
def findFreeInDir (v : Volume) (dirCluster needed : Nat) : Option (Option Slot) :=
  let slots := dirSlots fs v clusterLimit dirCluster 0
  match findFree needed 0 none slots.1 with
  | some s => some (some s)
  | none => if slots.2 then some none else none

/-- The loop of `fat32_add_dir_entry` that looks for a short name not in use: the name, and
whether a long name is needed. -/
def pickShortName (fs : Layout) (v : Volume) (dirCluster : Nat) (name : List Nat) :
    Nat → Nat → List Nat × Bool → Option (List Nat × Bool)
  | 0, _, short => some short
  | fuel + 1, suffix, short =>
    match findInDir fs v dirCluster (checkName short.1) with
    | none => none
    | some none => some short
    | some (some _) =>
      pickShortName fs v dirCluster name fuel (suffix + 1)
        ((generateShortName name (suffix + 1)).1, true)

/-- The free entries for an addition: found, or not found after the directory has grown by an
empty cluster. -/
def findSpace (v : Volume) (dirCluster needed : Nat) : Option (Option Slot × Volume) :=
  match findFreeInDir fs v dirCluster needed with
  | none => none
  | some (some start) => some (some start, v)
  | some none =>
    match extendChain fs v dirCluster with
    | none => none
    | some (new, v) =>
      if new = 0 then some (none, v)
      else
        let v := v.zeroCluster new
        match findFreeInDir fs v dirCluster needed with
        | none => none
        | some start => some (start, v)

/-- The loop that writes the entries of an addition. The index is compared with the number of
entries in a cluster, although it counts from the start of the directory. -/
def writeEntries (fs : Layout) : Volume → Nat → Nat → List Dirent → Int × Volume
  | v, _, _, [] => (vfsOk, v)
  | v, c, i, d :: ds =>
    if i ≥ fs.entriesPerCluster then
      let c' := getNext v c
      if ¬ IsValid c' then (vfsEnospc, v)
      else writeEntries fs (v.setDirent c' 0 d) c' 1 ds
    else writeEntries fs (v.setDirent c i d) c (i + 1) ds

/-- The entries of an addition. -/
def newEntries (name short : List Nat) (needsLfn : Bool) (attr cluster size : Nat) :
    Option (List Dirent) :=
  let entry := Dirent.short short attr cluster size
  if needsLfn ∨ name.length > 11 then (createLfn name (lfnChecksum short)).map (· ++ [entry])
  else some [entry]

section

variable (v : Volume) (dirCluster : Nat) (name : List Nat)

/-- The short name that an addition picks, and whether a long name is needed. -/
def shortNameFor : Option (List Nat × Bool) :=
  pickShortName fs v dirCluster name 999999 0 (generateShortName name 0)

/-- How many entries an addition takes. -/
def entriesFor (short : List Nat × Bool) : Nat :=
  (if short.2 ∨ name.length > 11 then lfnCount name else 0) + 1

/-- The first half of `fat32_add_dir_entry`: the short name, the free entries, and the volume
after the search for them. -/
def addSpace : Option ((List Nat × Bool) × Option Slot × Volume) :=
  match shortNameFor fs v dirCluster name with
  | none => none
  | some short =>
    (findSpace fs v dirCluster (entriesFor name short)).map fun space => (short, space)

/-- `fat32_add_dir_entry`. -/
def addDirEntry (attr cluster size : Nat) : Option (Int × Volume) :=
  match addSpace fs v dirCluster name with
  | none => none
  | some (_, none, v) => some (vfsEnospc, v)
  | some (short, some start, v) =>
    (newEntries name short.1 short.2 attr cluster size).map
      (writeEntries fs v start.cluster start.index)

end

/-- The entries of a long name before index `i` of a cluster are marked. -/
def markLong (entries : Nat → Dirent) : Nat → (Nat → Dirent)
  | 0 => entries
  | i + 1 =>
    if (entries i).isLong then
      markLong (update entries i (entries i).markFree) i
    else entries

/-- Whether the walk of `fat32_remove_dir_entry` along the directory meets a cluster. -/
def inChain (v : Volume) (target : Nat) : Nat → Nat → Option Bool
  | 0, _ => none
  | fuel + 1, c =>
    if ¬ IsValid c then some false
    else if c = target then some true
    else inChain v target fuel (getNext v c)

/-- `fat32_remove_dir_entry`. -/
def removeDirEntry (v : Volume) (dirCluster entryCluster entryIndex : Nat) :
    Option (Int × Volume) :=
  let i := entryIndex % fs.entriesPerCluster
  let entries := v.dirs entryCluster
  let entries := update entries i (entries i).markFree
  match inChain v entryCluster clusterLimit dirCluster with
  | none => none
  | some found =>
    let entries := if found then markLong entries i else entries
    some (vfsOk, v.writeCluster entryCluster entries)

/-! ### Nodes -/

/-- A node of the virtual file system with its `fat32_inode_info_t`. The root directory has
`dirCluster` 0. -/
structure Node where
  isDir : Bool
  size : Nat
  firstCluster : Nat
  dirCluster : Nat
  dirIndex : Nat
  dirent : Dirent
  dirty : Bool

/-- `fat32_create_node`. -/
def createNode (s : Slot) : Node where
  isDir := s.entry.isDir
  size := s.entry.fileSize
  firstCluster := s.entry.cluster
  dirCluster := s.cluster
  dirIndex := s.index
  dirent := s.entry
  dirty := false

/-! ### File operations -/

/-- `fat32_file_close`. -/
def fileClose (v : Volume) (node : Node) : Volume × Node :=
  if node.dirty then
    (v.setDirent node.dirCluster (node.dirIndex % fs.entriesPerCluster) node.dirent,
      { node with dirty := false })
  else (v, node)

/-- The next cluster of a file, added to the chain if need be; 0 when there is none. -/
def nextOrExtend (v : Volume) (c : Nat) : Option (Nat × Volume) :=
  let next := getNext v c
  if IsValid next then some (next, v)
  else
    match extendChain fs v c with
    | none => none
    | some (next, v) => if next = 0 then some (0, v) else some (next, v.zeroCluster next)

/-- The loop of `fat32_file_write` that goes to the cluster of the offset. -/
def seek (fs : Layout) : Nat → Volume → Nat → Option (Nat × Volume)
  | 0, v, c => some (c, v)
  | n + 1, v, c =>
    match nextOrExtend fs v c with
    | none => none
    | some (next, v) => if next = 0 then some (0, v) else seek fs n v next

/-- The loop of `fat32_file_write` that writes: `left` bytes are to be written, from `pos` in
the cluster on. `src` is what the written clusters hold. The result is how many bytes are
left. -/
def writeLoop (fs : Layout) (src : Nat → Nat → Dirent) :
    Nat → Volume → Nat → Nat → Nat → Option (Nat × Volume)
  | 0, v, _, _, left => some (left, v)
  | fuel + 1, v, c, pos, left =>
    if left = 0 then some (0, v)
    else
      let copied := min (fs.clusterSize - pos) left
      let v := v.writeCluster c (src c)
      if left - copied = 0 then some (0, v)
      else
        match nextOrExtend fs v c with
        | none => none
        | some (next, v) =>
          if next = 0 then some (left - copied, v)
          else writeLoop fs src fuel v next 0 (left - copied)

/-- The first cluster of a file that has none. -/
def firstCluster (fs : Layout) (v : Volume) (node : Node) : Option (Volume × Node) :=
  if node.firstCluster = 0 then
    match allocCluster fs v with
    | none => none
    | some (c, v) =>
      if c = 0 then some (v, node)
      else
        some (v.zeroCluster c,
          { node with firstCluster := c, dirent := node.dirent.setCluster c, dirty := true })
  else some (v, node)

/-- `fat32_file_write`: the result, the volume and the node. -/
def fileWrite (v : Volume) (node : Node) (src : Nat → Nat → Dirent)
    (size offset : Nat) : Option (Int × Volume × Node) :=
  if fs.readOnly then some (vfsEinval, v, node)
  else if size = 0 then some (0, v, node)
  else
    match firstCluster fs v node with
    | none => none
    | some (v, node) =>
      if node.firstCluster = 0 then some (vfsEnospc, v, node)
      else
        match seek fs (offset / fs.clusterSize % 2 ^ 32) v node.firstCluster with
        | none => none
        | some (c, v) =>
          if c = 0 then some (vfsEnospc, v, node)
          else
            match writeLoop fs src size v c (offset % fs.clusterSize) size with
            | none => none
            | some (left, v) =>
              let written := size - left
              let node :=
                if offset + written > node.size then
                  { node with
                    size := offset + written
                    dirent := node.dirent.setSize (offset + written)
                    dirty := true }
                else node
              some (written, v, node)

/-- Up to `n` steps along a chain. -/
def walk (v : Volume) : Nat → Nat → Nat
  | 0, c => c
  | n + 1, c => if IsValid c then walk v n (getNext v c) else c

/-- The cut of `fat32_file_truncate`: the chain ends after `needed` clusters. -/
def cutChain (v : Volume) (first needed : Nat) : Option Volume :=
  let c := walk v (needed - 1) first
  if IsValid c then
    let next := getNext v c
    if IsValid next then freeChain clusterLimit (setCluster v c eoc) next else some v
  else some v

/-- `fat32_file_truncate`. -/
def fileTruncate (v : Volume) (node : Node) (size : Nat) : Option (Int × Volume × Node) :=
  if fs.readOnly then some (vfsEinval, v, node)
  else if size = node.size then some (vfsOk, v, node)
  else
    let done (v : Volume) (node : Node) : Int × Volume × Node :=
      (vfsOk, v, { node with size := size, dirent := node.dirent.setSize size, dirty := true })
    if size = 0 then
      if node.firstCluster ≠ 0 then
        match freeChain clusterLimit v node.firstCluster with
        | none => none
        | some v =>
          some (done v { node with firstCluster := 0, dirent := node.dirent.setCluster 0 })
      else some (done v node)
    else if size < node.size then
      match cutChain v node.firstCluster
        ((size + fs.clusterSize - 1) / fs.clusterSize % 2 ^ 32) with
      | none => none
      | some v => some (done v node)
    else some (done v node)

/-! ### Directory operations -/

section

variable (v : Volume) (parent : Node) (name : List Nat)

/-- `fat32_dir_finddir`, for names other than `.` and `..`. -/
def dirFinddir : Option (Option Node) :=
  match findInDir fs v parent.firstCluster name with
  | none => none
  | some s => some (s.map createNode)

/-- `fat32_dir_create` of a file. -/
def dirCreate : Option (Int × Volume) :=
  if fs.readOnly then some (vfsEinval, v)
  else
    match findInDir fs v parent.firstCluster name with
    | none => none
    | some (some _) => some (vfsEexist, v)
    | some none => addDirEntry fs v parent.firstCluster name attrArchive 0 0

/-- `fat32_dir_unlink`. -/
def dirUnlink : Option (Int × Volume) :=
  if fs.readOnly then some (vfsEinval, v)
  else
    match findInDir fs v parent.firstCluster name with
    | none => none
    | some none => some (vfsEnoent, v)
    | some (some s) =>
      if s.entry.isDir then some (vfsEisdir, v)
      else
        match (if s.entry.cluster ≠ 0 then freeChain clusterLimit v s.entry.cluster
          else some v) with
        | none => none
        | some v => removeDirEntry fs v parent.firstCluster s.cluster s.index

end

/-- The entries of a new directory. -/
def dotEntries (self parent : Nat) : Nat → Dirent
  | 0 => .short (46 :: replicate 10 32) attrDirectory self 0
  | 1 => .short (46 :: 46 :: replicate 9 32) attrDirectory parent 0
  | _ => .zero

/-- `fat32_dir_mkdir`. -/
def dirMkdir (v : Volume) (parent : Node) (name : List Nat) : Option (Int × Volume) :=
  if fs.readOnly then some (vfsEinval, v)
  else
    match findInDir fs v parent.firstCluster name with
    | none => none
    | some (some _) => some (vfsEexist, v)
    | some none =>
      match allocCluster fs v with
      | none => none
      | some (new, v) =>
        if new = 0 then some (vfsEnospc, v)
        else
          let v := v.writeCluster new (dotEntries new parent.firstCluster)
          match addDirEntry fs v parent.firstCluster name attrDirectory new 0 with
          | none => none
          | some (ret, v) =>
            if ret ≠ vfsOk then (freeChain clusterLimit v new).map fun v => (ret, v)
            else some (vfsOk, v)

/-- An entry that makes a directory not empty. -/
def Dirent.inUse (d : Dirent) : Bool := d.first ≠ direntFree ∧ d.isLong = false ∧ d.isDot = false

/-- The clusters of a directory up to the first that is not empty: whether all are. -/
def isEmptyDir (fs : Layout) (v : Volume) : Nat → Nat → Option Bool
  | 0, _ => none
  | fuel + 1, c =>
    if ¬ IsValid c then some true
    else if (clusterSlots fs v c 0).any fun s => s.entry.inUse then some false
    else isEmptyDir fs v fuel (getNext v c)

/-- `fat32_dir_rmdir`. -/
def dirRmdir (v : Volume) (parent : Node) (name : List Nat) : Option (Int × Volume) :=
  if fs.readOnly then some (vfsEinval, v)
  else
    match findInDir fs v parent.firstCluster name with
    | none => none
    | some none => some (vfsEnoent, v)
    | some (some s) =>
      if ¬ s.entry.isDir then some (vfsEnotdir, v)
      else
        match isEmptyDir fs v clusterLimit s.entry.cluster with
        | none => none
        | some false => some (vfsEnotempty, v)
        | some true =>
          match freeChain clusterLimit v s.entry.cluster with
          | none => none
          | some v => removeDirEntry fs v parent.firstCluster s.cluster s.index

end Kurios.Fat32
