import Kurios.Fs.Codes
import Mathlib

/-!
The FAT32 driver (`kernel/fs/fat32.c`): the file allocation table, directory entries and
names.

A volume is the table, with the cached copy of a sector merged into it and without the
reserved upper bits, and what each cluster holds when it is read as directory entries. The
contents of files are not modelled beyond that. Transfers and `kmalloc` succeed; times are
left out. Characters are codes. A result `none` stands for a call that does not return,
because it follows a chain or searches the table without end, or that writes past a buffer.
-/

namespace Kurios.Fat32

open Function List

/-! ### Layout -/

/-- `FAT32_FREE`, `FAT32_BAD`, the least end-of-chain mark and the one the driver writes. -/
def freeMark : Nat := 0
def badMark : Nat := 0x0FFFFFF7
def eocMin : Nat := 0x0FFFFFF8
def eoc : Nat := 0x0FFFFFFF

/-- `FAT32_IS_VALID`. -/
def IsValid (c : Nat) : Prop := 2 ≤ c ∧ c < badMark
deriving Decidable

/-- What mounting computes from the boot sector. -/
structure Layout where
  totalClusters : Nat
  entriesPerCluster : Nat
  rootCluster : Nat
  readOnly : Bool
  entriesPerCluster_pos : 0 < entriesPerCluster
  totalClusters_lt : totalClusters + 2 ≤ badMark
  rootCluster_valid : IsValid rootCluster

/-- A directory entry takes 32 bytes. -/
def Layout.clusterSize (fs : Layout) : Nat := 32 * fs.entriesPerCluster

/-! ### Directory entries -/

/-- `FAT_ATTR_VOLUME_ID`, `FAT_ATTR_DIRECTORY`, `FAT_ATTR_ARCHIVE`. -/
def attrVolumeId : Nat := 0x08
def attrDirectory : Nat := 0x10
def attrArchive : Nat := 0x20

/-- `FAT_DIRENT_FREE`, `FAT_DIRENT_END`, `FAT_DIRENT_KANJI`. -/
def direntFree : Nat := 0xE5
def direntEnd : Nat := 0x00
def direntKanji : Nat := 0x05

/-- `FAT_LFN_LAST`, `FAT_LFN_CHARS`, `FAT_LFN_MAX_LEN`, which is also
`VFS_NAME_MAX`. -/
def lfnLast : Nat := 0x40
def lfnChars : Nat := 13
def nameMax : Nat := 255

/-- 32 bytes read as an entry: those with the attribute byte `FAT_ATTR_LFN` are part of a long
name. A short name has eight characters and three of extension. -/
inductive Dirent where
  | short (name : List Nat) (attr cluster size : Nat)
  | long (order checksum : Nat) (chars : List Nat)
deriving DecidableEq, Repr

namespace Dirent

/-- The first byte. -/
def first : Dirent → Nat
  | short name .. => name.headD 0
  | long order .. => order

/-- `entry->name[0] = FAT_DIRENT_FREE`. -/
def markFree : Dirent → Dirent
  | short name attr cluster size => .short (name.set 0 direntFree) attr cluster size
  | long _ checksum chars => .long direntFree checksum chars

def isLong : Dirent → Bool
  | short .. => false
  | long .. => true

/-- `FAT_GET_CLUSTER`. -/
def cluster : Dirent → Nat
  | short _ _ cluster _ => cluster
  | long .. => 0

def isDir : Dirent → Bool
  | short _ attr .. => attr &&& attrDirectory ≠ 0
  | long .. => false

def isLabel : Dirent → Bool
  | short _ attr .. => attr &&& attrVolumeId ≠ 0
  | long .. => false

/-- `FAT_SET_CLUSTER`. -/
def setCluster (c : Nat) : Dirent → Dirent
  | short name attr _ size => .short name attr c size
  | long order checksum chars => .long order checksum chars

/-- The field has 32 bits. -/
def setSize (size : Nat) : Dirent → Dirent
  | short name attr cluster _ => .short name attr cluster (size % 2 ^ 32)
  | long order checksum chars => .long order checksum chars

def fileSize : Dirent → Nat
  | short _ _ _ size => size
  | long .. => 0

/-- The names of the entries `.` and `..`, as `fat32_dir_rmdir` recognises them. -/
def isDotName : List Nat → Bool
  | 46 :: 32 :: _ => true
  | 46 :: 46 :: 32 :: _ => true
  | _ => false

def isDot : Dirent → Bool
  | short name .. => isDotName name
  | long .. => false

/-- Bytes that are all zero. -/
def zero : Dirent := .short (replicate 11 0) 0 0 0

end Dirent

/-! ### The volume -/

structure Volume where
  fat : Nat → Nat
  nextFree : Nat
  freeClusters : Nat
  dirs : Nat → Nat → Dirent

section

variable (v : Volume)

/-- `fat32_write_cluster`. -/
def Volume.writeCluster (c : Nat) (entries : Nat → Dirent) : Volume :=
  { v with dirs := update v.dirs c entries }

/-- One entry of a cluster is written. -/
def Volume.setDirent (c i : Nat) (d : Dirent) : Volume :=
  v.writeCluster c (update (v.dirs c) i d)

def Volume.zeroCluster (c : Nat) : Volume := v.writeCluster c fun _ => .zero

/-- `fat32_get_next_cluster`. -/
def getNext (c : Nat) : Nat := if IsValid c then v.fat c else 0

/-- `fat32_set_cluster`, on a volume that is not read-only. -/
def setCluster (c value : Nat) : Volume :=
  { v with fat := update v.fat c (value % 2 ^ 28) }

end

/-- The loop of `fat32_alloc_cluster`; 0 when it is back at the start. From 0xFFFFFFFF it goes on
to the entries 0 and 1, which are reserved and not free, and so to 2 as well. -/
def allocLoop (fs : Layout) (v : Volume) (start : Nat) : Nat → Nat → Option Nat
  | 0, _ => none
  | fuel + 1, c =>
    if v.fat c = freeMark then some c
    else
      let c' := if c + 1 ≥ fs.totalClusters + 2 then 2 else c + 1
      if c' = start then some 0 else allocLoop fs v start fuel c'

/-- The count of free clusters may be unknown. -/
def countUnknown : Nat := 0xFFFFFFFF

/-- `fat32_alloc_cluster`. The search visits the hint and the clusters of the volume; if it has
not come back to its start by then, it never does. -/
def allocCluster (fs : Layout) (v : Volume) : Option (Nat × Volume) :=
  if fs.readOnly ∨ v.freeClusters = 0 then some (0, v)
  else
    let start := if v.nextFree ≥ 2 then v.nextFree else 2
    match allocLoop fs v start (fs.totalClusters + 2) start with
    | none => none
    | some 0 => some (0, v)
    | some c =>
      some (c, { setCluster v c eoc with
        nextFree := c + 1
        freeClusters :=
          if v.freeClusters ≠ countUnknown then v.freeClusters - 1 else v.freeClusters })

/-- There are fewer valid cluster numbers than this, so a walk of so many steps is endless. -/
def clusterLimit : Nat := 2 ^ 28

/-- `fat32_free_chain`, on a volume that is not read-only. -/
def freeChain : Nat → Volume → Nat → Option Volume
  | 0, _, _ => none
  | fuel + 1, v, c =>
    if IsValid c then
      let next := getNext v c
      freeChain fuel
        { setCluster v c freeMark with
          freeClusters :=
            if v.freeClusters ≠ countUnknown then v.freeClusters + 1 else v.freeClusters } next
    else some v

/-- The last cluster of a chain. -/
def lastCluster (v : Volume) : Nat → Nat → Option Nat
  | 0, _ => none
  | fuel + 1, last =>
    let next := getNext v last
    if IsValid next then lastCluster v fuel next else some last

/-- `fat32_extend_chain`. -/
def extendChain (fs : Layout) (v : Volume) (chain : Nat) : Option (Nat × Volume) :=
  match allocCluster fs v with
  | none => none
  | some (0, v) => some (0, v)
  | some (new, v) =>
    if chain = 0 then some (new, v)
    else
      match lastCluster v clusterLimit chain with
      | none => none
      | some last => some (new, setCluster v last new)

/-! ### Names -/

/-- `tolower` and the conversion to uppercase, for codes of characters. -/
def toLower (c : Nat) : Nat := if 65 ≤ c ∧ c ≤ 90 then c + 32 else c
def toUpper (c : Nat) : Nat := if 97 ≤ c ∧ c ≤ 122 then c - 32 else c

/-- `strcasecmp(a, b) == 0`. -/
def SameName (a b : List Nat) : Prop := a.map toLower = b.map toLower
deriving Decidable

/-- `fat32_lfn_checksum`. -/
def lfnChecksum (shortname : List Nat) : Nat :=
  shortname.foldl (fun sum c => ((if sum % 2 = 1 then 0x80 else 0) + sum / 2 + c) % 256) 0

/-- The characters of a field up to the first space. -/
def field (cs : List Nat) : List Nat := cs.takeWhile (· ≠ 32)

/-- `fat32_short_to_name`. -/
def shortToName (name : List Nat) : List Nat :=
  let base :=
    if name.headD 0 = direntKanji then 0xE5 :: field ((name.take 8).drop 1)
    else field (name.take 8)
  let ext := (name.drop 8).take 3
  let full := if ext.headD 32 ≠ 32 then base ++ 46 :: field ext else base
  -- What follows a zero byte is not part of a C string.
  (full.takeWhile (· ≠ 0)).map toLower

/-- The characters that a short name has no place for: controls and those above 127, which are
negative, and `+,;=[]`. -/
def isInvalid (c : Nat) : Bool := c < 32 ∨ 128 ≤ c ∨ c ∈ [43, 44, 59, 61, 91, 93]

/-- A character of the base name, and whether it was replaced. -/
def shortChar (c : Nat) : Nat × Bool :=
  if isInvalid (toUpper c) then (95, true) else (toUpper c, false)

/-- Up to `room` characters of the base name, without spaces and dots; and whether some
were skipped or replaced. -/
def baseChars : Nat → List Nat → List Nat × Bool
  | 0, _ => ([], false)
  | _ + 1, [] => ([], false)
  | room + 1, c :: cs =>
    if c = 32 ∨ c = 46 then ((baseChars (room + 1) cs).1, true)
    else ((shortChar c).1 :: (baseChars room cs).1, (shortChar c).2 || (baseChars room cs).2)

/-- A character of the extension. -/
def extChar (c : Nat) : Nat × Bool :=
  if isInvalid (toUpper c) ∨ toUpper c = 32 ∨ toUpper c = 46 then (95, true)
  else (toUpper c, false)

/-- The name before its last dot, and what follows the dot. -/
def splitExt (name : List Nat) : List Nat × Option (List Nat) :=
  let ext := name.reverse.takeWhile (· ≠ 46)
  if 46 ∈ name then (name.take (name.length - ext.length - 1), some ext.reverse) else (name, none)

def pad (n : Nat) (cs : List Nat) : List Nat := cs ++ replicate (n - cs.length) 32

/-- `~` and a number. -/
def suffixChars (n : Nat) : List Nat := 126 :: (Nat.toDigits 10 n).map Char.toNat

/-- `fat32_generate_short_name`: the short name, and whether something of the name is lost. -/
def generateShortName (longname : List Nat) (suffix : Nat) : List Nat × Bool :=
  let (stem, ext) := splitExt longname
  let (chars, skipped) := baseChars 8 stem
  let base := pad 8 (if chars = [] then [95] else chars)
  let lossy := skipped || decide (chars = []) || decide (stem.length > 8)
  let extension := pad 3 (((ext.getD []).take 3).map fun c => (extChar c).1)
  let lossy := lossy || ((ext.getD []).take 3).any (fun c => (extChar c).2)
    || decide ((ext.getD []).length > 3)
  if 0 < suffix ∧ suffix < 1000000 then
    let digits := suffixChars suffix
    (base.take (8 - digits.length) ++ digits ++ extension, true)
  else (base ++ extension, lossy)

/-- The name under which `fat32_add_dir_entry` looks for a short name: trailing spaces of the
base name go, but not those of the extension. -/
def checkName (shortname : List Nat) : List Nat :=
  let base := ((shortname.take 8).reverse.dropWhile (· = 32)).reverse
  let ext := (shortname.drop 8).take 3
  if ext.headD 32 ≠ 32 then base ++ 46 :: ext else base

section

variable (name : List Nat)

/-- A unit of the buffer of `fat32_create_lfn`: the name, a zero and padding. -/
def lfnUnit (i : Nat) : Nat :=
  if i < name.length then name.getD i 0 else if i = name.length then 0 else 0xFFFF

/-- How many entries a long name takes. -/
def lfnCount : Nat := (name.length + lfnChars - 1) / lfnChars

/-- The entry with number `order` of a long name. -/
def lfnEntry (checksum order : Nat) : Dirent :=
  .long (if order = lfnCount name then order + lfnLast else order) checksum
    ((range lfnChars).map fun j => lfnUnit name ((order - 1) * lfnChars + j))

/-- `fat32_create_lfn`. The buffer has room for 256 units. -/
def createLfn (checksum : Nat) : Option (List Dirent) :=
  if lfnCount name * lfnChars > nameMax + 1 then none
  else
    some ((range (lfnCount name)).map fun i => lfnEntry name checksum (lfnCount name - i))

end

end Kurios.Fat32
