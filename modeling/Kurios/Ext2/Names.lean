import Kurios.Ext2.BlockMap
import Kurios.Ext2.Chains

/-!
The names of an ext2 directory over sequences of additions and removals.

The entries of a directory are those of its blocks, one after the other (`entries`), and a
lookup finds what stands under a name (`lookup_eq`). An addition is one entry more and a
removal one less, in one block or in a new one; what the map of names becomes follows from
that. `directory_semantics` is the result, for sequences whose removals are `Careful`;
`remove_after_reuse` is a sequence whose last removal is not.
-/

namespace Kurios.Ext2

open Base Errno Volume Function List

variable {bs num type : Nat} {offs offs' : List Nat} {α : Type}

/-! ### The entries of a directory -/

/-- The offsets that the scans of a block visit. -/
def records (bs : Nat) (buf : Buffer) : Nat → Nat → List Nat
  | 0, _ => []
  | fuel + 1, off =>
    if off ≥ bs then [] else
    if deRecLen buf off = 0 then [] else off :: records bs buf fuel (off + deRecLen buf off)

def blockEntries (bs : Nat) (buf : Buffer) : List (List UInt8 × Nat) :=
  entriesAt buf (records bs buf bs 0)

/-- The entries in one logical block. -/
def part (fs : Layout) (v : Volume) (c : Inode) (l : Nat) : List (List UInt8 × Nat) :=
  if mapBlock fs v c l = 0 then [] else blockEntries fs.blockSize (v.data (mapBlock fs v c l))

def entries (fs : Layout) (v : Volume) (c : Inode) : List (List UInt8 × Nat) :=
  (dirBlocks fs c).flatMap (part fs v c)

variable {fs : Layout} {v v' : Volume} {C : Nat → Inode → Prop} {owner : Nat → Option Place}
  {node node' : Node} {c c' : Inode} {l phys : Nat} {buf : Buffer} {name : List UInt8}

theorem records_eq {fuel off} (h : Chain buf off bs offs) (hfuel : bs - off ≤ fuel) :
    records bs buf fuel off = offs := by
  induction fuel generalizing off offs with
  | zero => rw [h.eq_nil (Nat.le_of_sub_eq_zero (Nat.le_zero.mp hfuel)), records]
  | succ fuel ih =>
    rw [records]
    cases h with
    | nil => rw [if_pos le_rfl]
    | cons halign hroom hrest =>
      have hpos := Chain.pos_recLen hroom
      have hle := hrest.le
      rw [if_neg (by omega), if_neg (by omega), ih hrest (by omega)]

theorem blockEntries_eq (h : Chain buf 0 bs offs) : blockEntries bs buf = entriesAt buf offs := by
  rw [blockEntries, records_eq h (Nat.sub_le _ _)]

/-- A directory as the driver leaves it, on a volume where every block has one owner. -/
structure WellFormed (fs : Layout) (C : Nat → Inode → Prop) (v : Volume) (node : Node) : Prop where
  owned : ∃ owner, Owned fs v (addCopy C node.ino node.inode) owner
  isDir : node.inode.iMode = .directory
  size : fs.blockSize ∣ node.inode.iSize
  chains : ∀ l ∈ dirBlocks fs node.inode, mapBlock fs v node.inode l ≠ 0 →
    ∃ offs, Chain (v.data (mapBlock fs v node.inode l)) 0 fs.blockSize offs
  distinct : (keys (entries fs v node.inode)).Nodup
  inodes : ∀ e ∈ entries fs v node.inode, e.2 ≤ fs.inodesCount

theorem WellFormed.hasBlocks (h : WellFormed fs C v node) : node.inode.HasBlocks :=
  Inode.IsFile.hasBlocks (.inr h.isDir)

/-! ### Scans -/

theorem getBlock_of_mem (hmem : v.mem = []) (c : Inode) (l : Nat) :
    getBlock fs v c l = (mapBlock fs v c l, v) := by
  have hk := kmalloc_of_mem hmem
  have hsnd : (getBlock fs v c l).2 = v := by
    unfold getBlock
    simp only [hk]
    repeat' split
    all_goals rfl
  exact Prod.ext (getBlock_of_kmalloc hk c l) hsnd

/-- With memory, a scan reads all blocks of the directory until it finds something. -/
theorem scanBlocks_of_mem (fs : Layout) (c : Inode) (f : Buffer → Option α) (hmem : v.mem = [])
    (ls : List Nat) :
    (scanBlocks fs c f v ls).1.map Prod.snd = ls.findSome? (fun l =>
        if mapBlock fs v c l = 0 then none else f (v.data (mapBlock fs v c l))) ∧
      (scanBlocks fs c f v ls).2 = v := by
  induction ls with
  | nil => exact ⟨rfl, rfl⟩
  | cons l ls ih =>
    rw [scanBlocks, getBlock_of_mem hmem, findSome?_cons]
    simp only
    split
    · exact ih
    case isFalse hne =>
    cases hf : f (v.data (mapBlock fs v c l)) with
    | none => exact ih
    | some a => exact ⟨rfl, rfl⟩

/-- The inode that a lookup through the node finds under a name, when there is memory. -/
def lookup (fs : Layout) (v : Volume) (node : Node) (name : List UInt8) : Option Nat :=
  (dirFinddir fs { v with mem := [] } node name).1.map Node.ino

theorem part_lookup (h : WellFormed fs C v node) (hl : l ∈ dirBlocks fs node.inode)
    (name : List UInt8) :
    toMap (part fs v node.inode l) name =
      if mapBlock fs v node.inode l = 0 then none else
        (findEntry fs.blockSize (v.data (mapBlock fs v node.inode l)) name fs.blockSize 0 none).map
          fun r => deInode (v.data (mapBlock fs v node.inode l)) r.1 := by
  unfold part
  split
  · rfl
  case isFalse hne =>
    obtain ⟨offs, hchain⟩ := h.chains l hl hne
    rw [blockEntries_eq hchain, (findEntry_spec hchain (Nat.sub_le _ _) name none).lookup]

theorem findSome?_congr {β : Type} {f g : α → Option β} {ls : List α} (h : ∀ x ∈ ls, f x = g x) :
    ls.findSome? f = ls.findSome? g := by
  rw [← head?_filterMap, filterMap_congr h, head?_filterMap]

theorem lookupName_of_mem (h : WellFormed fs C v node) (hmem : v.mem = []) (name : List UInt8) :
    lookupName fs v node.inode name = (toMap (entries fs v node.inode) name, v) := by
  unfold lookupName
  rw [kmalloc_of_mem hmem]
  obtain ⟨hfst, hsnd⟩ := scanBlocks_of_mem fs node.inode (fun buf =>
    (findEntry fs.blockSize buf name fs.blockSize 0 none).map fun r => deInode buf r.1) hmem
    (dirBlocks fs node.inode)
  rw [entries, toMap_flatMap, findSome?_congr fun l hl => part_lookup h hl name, ← hfst]
  simp only [Bool.not_true, Bool.false_eq_true, if_false]
  generalize scanBlocks fs node.inode (fun buf =>
    (findEntry fs.blockSize buf name fs.blockSize 0 none).map fun r => deInode buf r.1) v
    (dirBlocks fs node.inode) = r at hsnd
  obtain ⟨found, v1⟩ := r
  cases hsnd
  cases found <;> rfl

theorem ne_zero_of_mem_entries {e} (h : e ∈ entries fs v c) : e.2 ≠ 0 := by
  obtain ⟨l, -, hpart⟩ := mem_flatMap.mp h
  unfold part at hpart
  split at hpart
  · cases hpart
  obtain ⟨off, -, hat⟩ := mem_filterMap.mp hpart
  unfold entryAt at hat
  split at hat
  · cases hat
  case isFalse hne =>
    cases hat
    exact hne

theorem entries_congr (hdata : v'.data = v.data) (c : Inode) :
    entries fs v' c = entries fs v c := by
  refine flatMap_congr fun l _ => ?_
  rw [part, part, mapBlock_congr hdata, hdata]

/-- What a call does to the names: the directory is well formed, with this map of names. -/
structure Becomes (fs : Layout) (C : Nat → Inode → Prop) (v : Volume) (node : Node)
    (names : List UInt8 → Option Nat) : Prop where
  wellFormed : WellFormed fs C v node
  names : toMap (entries fs v node.inode) = names

/-- No block of the directory changes, and no block moves. -/
theorem WellFormed.unchanged (h : WellFormed fs C v node)
    (hown : ∃ owner, Owned fs v' (addCopy C node'.ino node'.inode) owner)
    (hmode : node'.inode.iMode = node.inode.iMode) (hsize : node'.inode.iSize = node.inode.iSize)
    (hmap : ∀ l, mapBlock fs v' node'.inode l = mapBlock fs v node.inode l)
    (hdata : ∀ l, mapBlock fs v node.inode l ≠ 0 →
      v'.data (mapBlock fs v node.inode l) = v.data (mapBlock fs v node.inode l)) :
    Becomes fs C v' node' (toMap (entries fs v node.inode)) := by
  have hblocks : dirBlocks fs node'.inode = dirBlocks fs node.inode := by
    rw [dirBlocks, dirBlocks, hsize]
  have hpart : ∀ l, part fs v' node'.inode l = part fs v node.inode l := by
    intro l
    rw [part, part, hmap]
    split
    · rfl
    · rw [hdata l ‹_›]
  have hentries : entries fs v' node'.inode = entries fs v node.inode := by
    rw [entries, entries, hblocks]
    exact flatMap_congr fun l _ => hpart l
  refine ⟨⟨hown, hmode.trans h.isDir, ?_, fun l hl hne => ?_, ?_, ?_⟩, ?_⟩
  · rw [hsize]
    exact h.size
  · rw [hmap] at hne ⊢
    rw [hdata l hne]
    rw [hblocks] at hl
    exact h.chains l hl hne
  · rw [hentries]
    exact h.distinct
  · rw [hentries]
    exact h.inodes
  · rw [hentries]

/-- With the same blocks, a directory is as it was. -/
theorem WellFormed.grows (h : WellFormed fs C v node) (hg : v.Grows v') :
    Becomes fs C v' node (toMap (entries fs v node.inode)) :=
  h.unchanged (h.owned.imp fun _ hown => hown.grows hg) rfl rfl (mapBlock_congr hg.data _)
    fun _ _ => congrFun hg.data _

/-- A lookup finds the entry with the name. -/
theorem lookup_eq (h : WellFormed fs C v node) (name : List UInt8) :
    lookup fs v node name = toMap (entries fs v node.inode) name := by
  have hsame : v.SameDisk { v with mem := [] } := ⟨[], nil_suffix, rfl⟩
  have hname := lookupName_of_mem (h.grows hsame.grows).wellFormed rfl name
  rw [entries_congr hsame.grows.data] at hname
  unfold lookup dirFinddir
  rw [hname]
  cases hfound : toMap (entries fs v node.inode) name with
  | none => rfl
  | some ino =>
    have hmem := mem_of_toMap_eq_some hfound
    have hrng : ¬ (ino = 0 ∨ ino > fs.inodesCount) :=
      not_or.mpr ⟨ne_zero_of_mem_entries hmem, Nat.not_lt_of_le (h.inodes _ hmem)⟩
    simp only [readInode, if_neg hrng]
    rfl

/-! ### One block changes -/

/-- Two logical blocks are not in one block. -/
theorem mapBlock_ne (h : Owned fs v C owner) {ino} (hc : C ino c) (hhas : c.HasBlocks)
    {l'} (hne : l' ≠ l) (hphys : mapBlock fs v c l ≠ 0) :
    mapBlock fs v c l' ≠ mapBlock fs v c l := by
  intro heq
  obtain ⟨t, path, hpath, howner⟩ := h.mapBlock_owner hc hhas hphys
  obtain ⟨t', path', hpath', howner'⟩ := h.mapBlock_owner hc hhas (heq ▸ hphys)
  rw [heq, howner] at howner'
  cases howner'
  exact hne (slotPath_inj hpath' hpath)

section

variable (hphys : mapBlock fs v node.inode l = phys)
include hphys

/-- A block of the directory is written. -/
theorem WellFormed.writeBlock (h : WellFormed fs C v node) (hne : phys ≠ 0)
    (hchain : Chain buf 0 fs.blockSize offs) :
    (∀ l' ∈ dirBlocks fs node.inode, l' ≠ l →
        part fs (v.writeBlock phys buf) node.inode l' = part fs v node.inode l') ∧
      part fs (v.writeBlock phys buf) node.inode l = entriesAt buf offs ∧
      (∀ l' ∈ dirBlocks fs node.inode, mapBlock fs (v.writeBlock phys buf) node.inode l' ≠ 0 →
        ∃ offs, Chain ((v.writeBlock phys buf).data
          (mapBlock fs (v.writeBlock phys buf) node.inode l')) 0 fs.blockSize offs) := by
  subst hphys
  obtain ⟨owner, hown⟩ := h.owned
  have hcopy : addCopy C node.ino node.inode node.ino node.inode := .inr ⟨rfl, rfl⟩
  have hhas := h.hasBlocks
  obtain ⟨t, path, hpath, howner⟩ := hown.mapBlock_owner hcopy hhas hne
  generalize hphys : mapBlock fs v node.inode l = phys at *
  have hmap : ∀ l', mapBlock fs (v.writeBlock phys buf) node.inode l' =
      mapBlock fs v node.inode l' := by
    refine hown.mapBlock_of_data hcopy hhas fun b p hp hdata => update_of_ne ?_ _ _
    rintro rfl
    rw [howner] at hp
    cases hp
    exact hdata (slotPath_spec hpath).2.1
  have hdata : ∀ l', l' ≠ l → (v.writeBlock phys buf).data (mapBlock fs v node.inode l') =
      v.data (mapBlock fs v node.inode l') := by
    intro l' hl'
    refine update_of_ne ?_ _ _
    rw [← hphys]
    exact mapBlock_ne hown hcopy hhas hl' (hphys ▸ hne)
  have hself : (v.writeBlock phys buf).data phys = buf := update_self _ _ _
  refine ⟨fun l' _ hl' => ?_, ?_, fun l' hl' hne' => ?_⟩
  · rw [part, part, hmap, hdata l' hl']
  · rw [part, hmap, hphys, if_neg hne, hself, blockEntries_eq hchain]
  rw [hmap] at hne' ⊢
  by_cases heq : l' = l
  · rw [heq, hphys, hself]
    exact ⟨offs, hchain⟩
  · rw [hdata l' heq]
    exact h.chains l' hl' hne'

theorem part_eq (hne : phys ≠ 0) (hchain : Chain (v.data phys) 0 fs.blockSize offs) :
    part fs v node.inode l = entriesAt (v.data phys) offs := by
  rw [part, hphys, if_neg hne, blockEntries_eq hchain]

variable (h : WellFormed fs C v node) (hl : l ∈ dirBlocks fs node.inode) (hne : phys ≠ 0)
  (hchain : Chain (v.data phys) 0 fs.blockSize offs)
  (hown : ∃ owner, Owned fs (v.writeBlock phys buf) (addCopy C node.ino node.inode) owner)
include h hl hne hchain hown

/-- One block of the directory gets an entry. -/
theorem WellFormed.addIn (hpl : Placed fs.blockSize (v.data phys) 0 offs name num buf offs')
    (hname : name ∉ keys (entries fs v node.inode)) (hnum : num ≤ fs.inodesCount) :
    Becomes fs C (v.writeBlock phys buf) node
      (update (toMap (entries fs v node.inode)) name (some num)) := by
  obtain ⟨hoth, hpart, hchains⟩ := h.writeBlock hphys hne hpl.chain
  have hperm : (entries fs (v.writeBlock phys buf) node.inode).Perm
      ((name, num) :: entries fs v node.inode) := by
    refine flatMap_perm_cons nodup_range hl ?_ hoth
    rw [hpart, part_eq hphys hne hchain]
    exact hpl.entries
  obtain ⟨hdistinct, hmap⟩ := toMap_of_perm_cons h.distinct hname hperm
  refine ⟨⟨hown, h.isDir, h.size, hchains, hdistinct, fun e he => ?_⟩, hmap⟩
  rcases mem_cons.mp (hperm.mem_iff.mp he) with rfl | he
  · exact hnum
  · exact h.inodes e he

/-- One block of the directory loses an entry. -/
theorem WellFormed.removeIn
    (hdropped : Dropped fs.blockSize (v.data phys) offs name num buf offs') :
    Becomes fs C (v.writeBlock phys buf) node
      (update (toMap (entries fs v node.inode)) name none) := by
  obtain ⟨hoth, hpart, hchains⟩ := h.writeBlock hphys hne hdropped.chain
  have hperm : (entries fs v node.inode).Perm
      ((name, num) :: entries fs (v.writeBlock phys buf) node.inode) := by
    refine flatMap_perm_cons nodup_range hl ?_ fun l' hl' hne' => (hoth l' hl' hne').symm
    rw [hpart, part_eq hphys hne hchain]
    exact hdropped.entries
  obtain ⟨hdistinct, hmap⟩ := toMap_of_cons_perm h.distinct hperm
  refine ⟨⟨hown, h.isDir, h.size, hchains, hdistinct, fun e he => ?_⟩, hmap⟩
  exact h.inodes e (hperm.mem_iff.mpr (mem_cons_of_mem _ he))

end

/-! ### Removals -/

/-- Where a name is removed from a block, the record that takes the space is the one just
before. -/
def Adjacent (fs : Layout) (buf : Buffer) (name : List UInt8) : Prop :=
  ∀ r ∈ findEntry fs.blockSize buf name fs.blockSize 0 none, ∀ p ∈ r.2, p + deRecLen buf p = r.1
deriving Decidable

theorem removeDirEntry_names (hbs : fs.blockSize < 2 ^ 16) (h : WellFormed fs C v node)
    (hadjacent : ∀ l ∈ dirBlocks fs node.inode, mapBlock fs v node.inode l ≠ 0 →
      Adjacent fs (v.data (mapBlock fs v node.inode l)) name) :
    Becomes fs C (removeDirEntry fs v node name).2 node
      (if (removeDirEntry fs v node name).1 = vfsOk then
        update (toMap (entries fs v node.inode)) name none
      else toMap (entries fs v node.inode)) := by
  obtain ⟨owner, hown⟩ := h.owned
  obtain ⟨v', hdisk, ⟨err, heq, herr⟩ | ⟨l, hl, b, r, hmap, hne, hfind, heq⟩⟩ :=
    removeDirEntry_cases fs v node name
  · rw [heq, if_neg herr]
    exact h.grows hdisk.grows
  rw [heq, if_pos rfl]
  have hdata := hdisk.grows.data
  have howned' := hown.writeData hdisk (.inr ⟨rfl, rfl⟩) h.hasBlocks hmap hne
    (dropEntry (v.data b) r.1 r.2)
  subst hmap
  obtain ⟨offs, hchain⟩ := h.chains l hl hne
  have hspec := findEntry_spec hchain (Nat.sub_le _ _) name none
  rw [hfind] at hspec
  cases hspec with
  | @some xs ys o hoffs hbef hent =>
    subst hoffs
    obtain ⟨offs', hdropped⟩ := dropEntry_spec hbs hchain hent
      (fun p hp => (mem_of_lastUsed hp).resolve_right fun hnone => by cases hnone)
      (hadjacent l hl hne _ hfind)
    rw [← hdata] at hchain hdropped howned'
    have hrem := (h.grows hdisk.grows).wellFormed.removeIn (mapBlock_congr hdata _ _) hl hne
      hchain ⟨owner, howned'⟩ hdropped
    rw [entries_congr hdata, hdata] at hrem
    exact hrem

/-! ### Additions -/

/-- A directory of one block more, with one entry in it. -/
theorem WellFormed.addBlock (h : WellFormed fs C v node)
    (hown : ∃ owner, Owned fs v' (addCopy C node'.ino node'.inode) owner)
    (hmode : node'.inode.iMode = node.inode.iMode)
    (hsize : node'.inode.iSize = node.inode.iSize + fs.blockSize)
    (hoth : ∀ l, l ≠ node.inode.iSize / fs.blockSize →
      mapBlock fs v' node'.inode l = mapBlock fs v node.inode l)
    (hdata : ∀ l, l ≠ node.inode.iSize / fs.blockSize → mapBlock fs v node.inode l ≠ 0 →
      v'.data (mapBlock fs v node.inode l) = v.data (mapBlock fs v node.inode l))
    (hphys : mapBlock fs v' node'.inode (node.inode.iSize / fs.blockSize) = phys) (hne : phys ≠ 0)
    (hchain : Chain (v'.data phys) 0 fs.blockSize offs)
    (hentries : entriesAt (v'.data phys) offs = [(name, num)])
    (hname : name ∉ keys (entries fs v node.inode)) (hnum : num ≤ fs.inodesCount) :
    Becomes fs C v' node' (update (toMap (entries fs v node.inode)) name (some num)) := by
  obtain ⟨n, hn⟩ := h.size
  have hdiv : node.inode.iSize / fs.blockSize = n := by
    rw [hn, Nat.mul_div_cancel_left n fs.blockSize_pos]
  rw [hdiv] at hoth hdata hphys
  have hround : ∀ m, (fs.blockSize * m + fs.blockSize - 1) / fs.blockSize = m := by
    intro m
    have hpos := fs.blockSize_pos
    rw [Nat.add_sub_assoc hpos, Nat.mul_add_div hpos,
      Nat.div_eq_of_lt (Nat.sub_lt hpos Nat.one_pos), add_zero]
  have hblocks : dirBlocks fs node.inode = range n := by
    rw [dirBlocks, hn, hround]
  have hblocks' : dirBlocks fs node'.inode = range n ++ [n] := by
    rw [dirBlocks, hsize, hn, ← Nat.mul_succ, hround, range_succ]
  have hpart : ∀ l ∈ range n, part fs v' node'.inode l = part fs v node.inode l := by
    intro l hl
    have hlt : l ≠ n := ne_of_lt (mem_range.mp hl)
    rw [part, part, hoth l hlt]
    split
    · rfl
    · rw [hdata l hlt ‹_›]
  have hnew : part fs v' node'.inode n = [(name, num)] := by
    rw [part, hphys, if_neg hne, blockEntries_eq hchain, hentries]
  have hall : entries fs v' node'.inode = entries fs v node.inode ++ [(name, num)] := by
    rw [entries, entries, hblocks, hblocks', flatMap_append, flatMap_congr hpart,
      flatMap_singleton, hnew]
  have hperm : (entries fs v' node'.inode).Perm ((name, num) :: entries fs v node.inode) := by
    rw [hall]
    exact perm_append_singleton _ _
  obtain ⟨hdistinct, hmap⟩ := toMap_of_perm_cons h.distinct hname hperm
  refine ⟨⟨hown, hmode.trans h.isDir, ?_, fun l hl hl0 => ?_, hdistinct, fun e he => ?_⟩, hmap⟩
  · rw [hsize]
    exact dvd_add h.size (dvd_refl _)
  · rw [hblocks', mem_append, mem_singleton] at hl
    rcases hl with hl | rfl
    · have hlt : l ≠ n := ne_of_lt (mem_range.mp hl)
      rw [hoth l hlt] at hl0 ⊢
      rw [hdata l hlt hl0]
      exact h.chains l (hblocks ▸ hl) hl0
    · rw [hphys]
      exact ⟨offs, hchain⟩
  · rcases mem_cons.mp (hperm.mem_iff.mp he) with rfl | he
    · exact hnum
    · exact h.inodes e he

/-- What is asked of an addition: a name of one to 255 bytes that is absent, an inode number,
and a directory that does not grow to 4 GiB. -/
@[mk_iff]
structure Addable (fs : Layout) (v : Volume) (node : Node) (num : Nat) (name : List UInt8) :
    Prop where
  length : 1 ≤ name.length ∧ name.length ≤ 255
  absent : lookup fs v node name = none
  number : 0 < num ∧ num ≤ fs.inodesCount ∧ num < 2 ^ 32
  noWrap : node.inode.iSize + fs.blockSize < 2 ^ 32

section

variable (hbs : fs.blockSize < 2 ^ 16) (hfour : 4 ∣ fs.blockSize)
  (hroom : entrySize 255 ≤ fs.blockSize) (h : WellFormed fs C v node)
include hbs hfour hroom h

/-- The new block of a directory has the new name. -/
theorem appendDirBlock_names (type : Nat) (hlen : name.length ≤ 255) (hnum : 0 < num)
    (hcnt : num ≤ fs.inodesCount) (hnum32 : num < 2 ^ 32)
    (hname : name ∉ keys (entries fs v node.inode))
    (hwrap : node.inode.iSize + fs.blockSize < 2 ^ 32) :
    Becomes fs C (appendDirBlock fs v node num name type).2.1
      (appendDirBlock fs v node num name type).2.2
      (if (appendDirBlock fs v node num name type).1 = vfsOk then
        update (toMap (entries fs v node.inode)) name (some num)
      else toMap (entries fs v node.inode)) := by
  have hcopy : addCopy C node.ino node.inode node.ino node.inode := .inr ⟨rfl, rfl⟩
  have hfile : node.inode.IsFile := .inr h.isDir
  obtain ⟨owner, hown⟩ := h.owned
  unfold appendDirBlock
  simp only
  rcases hr : allocBlock fs v (fs.inodeGroup node.ino) with ⟨b, v1⟩
  have halloc := allocBlock_spec hown.padded hr
  have hgrows := halloc.grows
  split
  · exact h.grows hgrows
  case isFalse hb =>
  have hfresh := hown.fresh halloc hb
  have hfresh' := hfresh.writeBlock b (freshDirBlock fs num name type)
  have hwr := (hown.grows hgrows).writeFresh hfresh (freshDirBlock fs num name type)
  have hmapped := setBlock_mapped (hwr.tree hcopy hfile.hasBlocks) hwr.padded
    (hfresh.inRange.2.trans fs.blocksCount_lt) (node.inode.iSize / fs.blockSize)
    (fs.inodeGroup node.ino)
  rcases hr' : setBlock fs (v1.writeBlock b (freshDirBlock fs num name type)) node.inode
    (node.inode.iSize / fs.blockSize) b (fs.inodeGroup node.ino) with ⟨err, v2, c2⟩
  obtain ⟨owner', hset⟩ := setBlock_spec hwr hcopy hfile hfresh' hr'
  rw [hr'] at hmapped
  have hdata1 : ∀ b', b' ≠ 0 → Taken fs v1 b' → (∀ p, owner b' = some p → p.IsData) →
      v2.data b' = (v1.writeBlock b (freshDirBlock fs num name type)).data b' :=
    fun b' hne htaken hp => hmapped.data b' htaken fun t q hq => by
      -- A block of data is no pointer block.
      rintro rfl
      exact ne_of_lt hq.short (hp _ (hwr.blockAt_owner hcopy hfile.hasBlocks hq.toIsPlace hne))
  -- The new block is not one of the directory, so writing it changes nothing yet.
  have hother : ∀ b' p, owner b' = some p →
      (v1.writeBlock b (freshDirBlock fs num name type)).data b' = v.data b' := by
    intro b' p hp
    rw [← hgrows.data]
    refine update_of_ne ?_ _ _
    rintro rfl
    rw [hfresh.owner] at hp
    cases hp
  have hmap : ∀ l, mapBlock fs (v1.writeBlock b (freshDirBlock fs num name type)) node.inode l =
      mapBlock fs v node.inode l :=
    hown.mapBlock_of_data hcopy hfile.hasBlocks fun b' p hp _ => hother b' p hp
  have hdata : ∀ l, mapBlock fs v node.inode l ≠ 0 →
      v2.data (mapBlock fs v node.inode l) = v.data (mapBlock fs v node.inode l) := by
    intro l hl
    obtain ⟨t, path, hpath, hp⟩ := hown.mapBlock_owner hcopy hfile.hasBlocks hl
    rw [hdata1 _ hl (fun _ => hgrows.bits _ _ (hown.valid _ _ hp).2.1) fun p hp' => ?_,
      hother _ _ hp]
    cases hp.symm.trans hp'
    exact (slotPath_spec hpath).2.1
  split
  case isTrue herr =>
    have hfrees := freeBlock_frees fs v2 b
    refine h.unchanged ⟨owner', hset.carried.freeBlock (hset.failed herr)⟩ hset.kind.mode
      hset.kind.size (fun l => ?_) fun l hl => ?_
    · rw [mapBlock_congr hfrees.data, ← hmap l]
      by_cases hlast : l = node.inode.iSize / fs.blockSize
      · rw [hlast]
        exact hmapped.failed herr
      · exact hmapped.others l hlast
    · rw [hfrees.data]
      exact hdata l hl
  case isFalse herr =>
  have hsize : (c2.iSize + fs.blockSize) % 2 ^ 32 = node.inode.iSize + fs.blockSize := by
    rw [hset.kind.size, Nat.mod_eq_of_lt hwrap]
  obtain ⟨hchain, hentries⟩ := freshDirBlock_spec fs type hbs hfour
    (le_trans (entrySize_mono hlen) hroom) hnum hnum32 hlen
  have hnew : v2.data b = freshDirBlock fs num name type :=
    (hdata1 b hb (fun _ => hfresh.used) fun p hp => by rw [hfresh.owner] at hp; cases hp).trans
      (update_self _ _ _)
  rw [← hnew] at hchain hentries
  have hhas : c2.HasBlocks := (hfile.congr hset.kind.mode).hasBlocks
  refine h.addBlock ⟨owner', hset.carried.recopy rfl fun _ => hhas⟩ hset.kind.mode hsize
    (fun l hl => ?_) (fun l _ => hdata l) (hmapped.done (of_not_not herr)) hb hchain hentries
    hname hcnt
  exact (hmapped.others l hl).trans (hmap l)

theorem addDirEntry_names (hadd : Addable fs v node num name) (type : Nat) :
    Becomes fs C (addDirEntry fs v node num name type).2.1 (addDirEntry fs v node num name type).2.2
      (if (addDirEntry fs v node num name type).1 = vfsOk then
        update (toMap (entries fs v node.inode)) name (some num)
      else toMap (entries fs v node.inode)) := by
  have hname : name ∉ keys (entries fs v node.inode) := by
    refine toMap_eq_none_iff.mp ?_
    rw [← lookup_eq h]
    exact hadd.absent
  obtain ⟨hnum, hcnt, hnum32⟩ := hadd.number
  obtain ⟨owner, hown⟩ := h.owned
  obtain ⟨v', hdisk, heq | ⟨l, hl, b, buf, hmap, hne, hplace, heq⟩ | heq⟩ :=
    addDirEntry_cases fs v node num name type
  all_goals
    have hdata := hdisk.grows.data
    have hsame := h.grows hdisk.grows
    rw [heq]
  · exact hsame
  · have howned' := hown.writeData hdisk (.inr ⟨rfl, rfl⟩) h.hasBlocks hmap hne buf
    subst hmap
    obtain ⟨offs, hchain⟩ := h.chains l hl hne
    obtain ⟨offs', hpl⟩ := placeEntry_spec hbs hnum hnum32 hadd.length.2 hchain hplace
    rw [← hdata] at hchain hpl
    have hadded := hsame.wellFormed.addIn (mapBlock_congr hdata _ _) hl hne hchain
      ⟨owner, howned'⟩ hpl
    rw [entries_congr hdata] at hadded
    exact hadded hname hcnt
  have happend := appendDirBlock_names hbs hfour hroom hsame.wellFormed type hadd.length.2 hnum hcnt
    hnum32 (by rw [entries_congr hdata]; exact hname) hadd.noWrap
  rw [entries_congr hdata] at happend
  exact happend

end

/-! ### Whole sequences -/

/-- A directory with the names that it should have. -/
structure Listing where
  vol : Volume
  node : Node
  names : List UInt8 → Option Nat

inductive NameCall where
  | add (num : Nat) (name : List UInt8) (type : Nat)
  | remove (name : List UInt8)

instance (fs : Layout) (v : Volume) (node : Node) (num : Nat) (name : List UInt8) :
    Decidable (Addable fs v node num name) :=
  decidable_of_iff _ (addable_iff fs v node num name).symm

namespace Listing

/-- The names that lookups find. -/
def start (fs : Layout) (v : Volume) (node : Node) : Listing := ⟨v, node, lookup fs v node⟩

/-- A name is there from the addition that succeeds to the removal that succeeds. -/
def step (fs : Layout) (s : Listing) : NameCall → Option Listing
  | .add num name type =>
    let (err, v, node) := addDirEntry fs s.vol s.node num name type
    some ⟨v, node, if err = vfsOk then update s.names name (some num) else s.names⟩
  | .remove name =>
    let (err, v) := removeDirEntry fs s.vol s.node name
    some ⟨v, s.node, if err = vfsOk then update s.names name none else s.names⟩

/-- What the callers promise. -/
def Allowed (fs : Layout) (s : Listing) : NameCall → Prop
  | .add num name _ => Addable fs s.vol s.node num name
  | .remove _ => True

instance (fs : Layout) (s : Listing) (call : NameCall) : Decidable (Allowed fs s call) := by
  cases call <;> unfold Allowed <;> infer_instance

/-- Moreover, a removal merges a record with the one just before. -/
def Careful (fs : Layout) (s : Listing) : NameCall → Prop
  | .add num name _ => Addable fs s.vol s.node num name
  | .remove name => ∀ l ∈ dirBlocks fs s.node.inode, mapBlock fs s.vol s.node.inode l ≠ 0 →
    Adjacent fs (s.vol.data (mapBlock fs s.vol s.node.inode l)) name

instance (fs : Layout) (s : Listing) (call : NameCall) : Decidable (Careful fs s call) := by
  cases call <;> unfold Careful <;> infer_instance

/-- The names are those that lookups find. -/
structure Correct (fs : Layout) (C : Nat → Inode → Prop) (s : Listing) : Prop where
  wellFormed : WellFormed fs C s.vol s.node
  names : ∀ name, lookup fs s.vol s.node name = s.names name

namespace Correct

variable {s s' : Listing}

theorem of_becomes (h : Becomes fs C s.vol s.node s.names) : s.Correct fs C where
  wellFormed := h.wellFormed
  names name := by rw [lookup_eq h.wellFormed, h.names]

theorem toMap_entries (h : s.Correct fs C) : toMap (entries fs s.vol s.node.inode) = s.names := by
  funext name
  rw [← lookup_eq h.wellFormed]
  exact h.names name

theorem step {call log} (hlog : log < 6) (hblock : fs.blockSize = 1024 * 2 ^ log)
    (h : s.Correct fs C) (hcare : s.Careful fs call) (hstep : s.step fs call = some s') :
    s'.Correct fs C := by
  have hbs : fs.blockSize < 2 ^ 16 := by
    have hpow : 2 ^ log ≤ 2 ^ 5 := Nat.pow_le_pow_right Nat.two_pos (Nat.le_of_lt_succ hlog)
    omega
  have hfour : 4 ∣ fs.blockSize := by
    rw [hblock]
    exact Nat.dvd_mul_right_of_dvd (by decide) _
  have hroom : entrySize 255 ≤ fs.blockSize := by
    rw [hblock]
    exact le_trans (by decide) (Nat.le_mul_of_pos_right 1024 (Nat.two_pow_pos log))
  cases call with
  | add num name type =>
    cases hstep
    have hbecomes := addDirEntry_names hbs hfour hroom h.wellFormed hcare type
    rw [h.toMap_entries] at hbecomes
    exact .of_becomes hbecomes
  | remove name =>
    cases hstep
    have hbecomes := removeDirEntry_names hbs h.wellFormed hcare
    rw [h.toMap_entries] at hbecomes
    exact .of_becomes hbecomes

end Correct

end Listing

/-- After every careful sequence of additions and removals the blocks of the directory are
chains of records, and a lookup finds the inode that was added last under the name and not
removed since. -/
theorem directory_semantics {log : Nat} (hlog : log < 6) (hblock : fs.blockSize = 1024 * 2 ^ log)
    (h : WellFormed fs C v node) {calls : List NameCall} {s : Listing}
    (hrun : GuardedRun (Listing.step fs) (Listing.Careful fs) (.start fs v node) calls s) :
    WellFormed fs C s.vol s.node ∧ ∀ name, lookup fs s.vol s.node name = s.names name := by
  have hcorrect : s.Correct fs C :=
    hrun.inv (Listing.Correct fs C)
      (fun _ _ _ h => h.step hlog hblock) ⟨h, fun _ => rfl⟩
  exact ⟨hcorrect.wellFormed, hcorrect.names⟩

/-! ### Two sequences on a small volume -/

theorem wellFormed_emptyMount :
    WellFormed smallLayout (emptyMount.copies smallLayout) emptyMount.vol (emptyMount.node 0) := by
  obtain ⟨owner, hown⟩ := consistent_emptyMount.owned
  refine ⟨⟨owner, hown.copy (Mount.node_copy (by decide)) rfl id⟩, rfl, dvd_zero _, ?_, ?_, ?_⟩
  · intro l hl
    cases hl
  · exact nodup_nil
  · intro e he
    cases he

/-- Names come and go, and a record is used again. -/
def addAndRemove : List NameCall :=
  [.add 11 [97] 1, .add 12 [98, 98] 1, .remove [97], .add 13 [99] 1, .remove [98, 98], .remove [97]]

theorem directory_semantics_addAndRemove :
    ∃ s, GuardedRun (Listing.step smallLayout) (Listing.Careful smallLayout)
        (.start smallLayout emptyMount.vol (emptyMount.node 0)) addAndRemove s ∧
      s.names [99] = some 13 ∧ s.names [98, 98] = none ∧
      ∀ name, lookup smallLayout s.vol s.node name = s.names name := by
  have hlog : 0 < 6 := by decide
  apply exists_and_of₂ (by decide +kernel)
  intro s hrun _ _
  exact (directory_semantics hlog rfl wellFormed_emptyMount hrun).2

/-- The first two of four names are removed, and the first record is used again. When the third
name is removed its space goes to the first record, which now ends where the removed record
starts: the name is still found. -/
theorem remove_after_reuse :
    ∃ s, GuardedRun (Listing.step smallLayout) (Listing.Allowed smallLayout)
        (.start smallLayout emptyMount.vol (emptyMount.node 0))
        [.add 11 [97] 1, .add 12 [98] 1, .add 13 [99] 1, .add 14 [101] 1, .remove [97],
          .remove [98], .add 15 [100] 1, .remove [99]] s ∧
      s.names [99] = none ∧ lookup smallLayout s.vol s.node [99] = some 13 := by
  decide +kernel

end Kurios.Ext2
