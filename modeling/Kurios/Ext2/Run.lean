import Kurios.Ext2.Files

/-!
The blocks of an ext2 volume over whole histories.

`block_ownership` says that every block that is reached from an inode in use, through the
inode on the device or through the copy of a node, is marked in the bitmap and is reached by
one pointer only. It is for histories of calls that are `Careful`. The call that most
easily is not is `ext2_file_truncate`, which frees blocks and keeps the pointers to them
(`truncate_keeps_pointers`).
-/

namespace Kurios.Ext2

open Base Errno Volume Function List

variable {name : List UInt8} {node : Node}

/-! ### Inodes in use -/

/-- The inode is marked in the inode bitmap. -/
def Live (fs : Layout) (v : Volume) (ino : Nat) : Prop :=
  0 < ino ∧ ino ≤ fs.inodesCount ∧
    v.inodeBitmap ((ino - 1) / fs.inodesPerGroup) ((ino - 1) % fs.inodesPerGroup) = true
deriving Decidable

variable {fs : Layout} {v v' v'' : Volume} {C : Nat → Inode → Prop} {owner : Nat → Option Place}
  {ino ino' : Nat} {c : Inode}

theorem live_congr (h : SameInodes v v') : Live fs v' ino ↔ Live fs v ino := by
  unfold Live
  rw [h.inodeBitmap]

/-- Inodes in use stay in use and as they are. -/
def KeepsLive (fs : Layout) (v v' : Volume) : Prop :=
  ∀ ino, Live fs v ino → Live fs v' ino ∧ v'.inodes ino = v.inodes ino

theorem KeepsLive.trans (h : KeepsLive fs v v') (h' : KeepsLive fs v' v'') :
    KeepsLive fs v v'' := by
  intro ino hlive
  obtain ⟨hlive', heq⟩ := h ino hlive
  obtain ⟨hlive'', heq'⟩ := h' ino hlive'
  exact ⟨hlive'', heq'.trans heq⟩

theorem SameInodes.keepsLive (h : SameInodes v v') : KeepsLive fs v v' :=
  fun ino hlive => ⟨(live_congr h).mpr hlive, congrFun h.inodes ino⟩

/-- The contents of blocks and the block bitmap are as they were. -/
structure SameBlocks (v v' : Volume) : Prop where
  data : v'.data = v.data
  blockBitmap : v'.blockBitmap = v.blockBitmap

theorem SameBlocks.trans (h : SameBlocks v v') (h' : SameBlocks v' v'') : SameBlocks v v'' :=
  ⟨h'.data.trans h.data, h'.blockBitmap.trans h.blockBitmap⟩

theorem Owned.sameBlocks (h : Owned fs v C owner) (hsame : SameBlocks v v') :
    Owned fs v' C owner where
  labels := by
    rw [link_congr hsame.data]
    exact h.labels
  valid b p hp := by
    rw [used, hsame.blockBitmap]
    exact h.valid b p hp
  metas b := by
    rw [used, hsame.blockBitmap]
    exact h.metas b
  padded g i := by
    rw [hsame.blockBitmap]
    exact h.padded g i

/-- Copies without blocks have nothing that could be owned. -/
theorem Owned.blank (h : Owned fs v C owner) :
    Owned fs v (fun ino c => C ino c ∨ ∀ t < nBlocks, c.iBlock t = 0) owner := by
  refine h.mono fun p b hroot => ?_
  obtain ⟨hpath, hslot, hne, c, hc, hhas, hptr⟩ := hroot
  refine ⟨hpath, hslot, hne, c, ?_, hhas, hptr⟩
  exact hc.resolve_right fun hzero => hne (hptr.symm.trans (hzero p.slot hslot))

/-- One bit of the inode bitmap changes. -/
theorem live_setInodeBit_of_ne (v : Volume) (hpos : 0 < ino) (hne : ino' ≠ ino) (bit : Bool)
    (n : Nat) :
    Live fs ((v.setInodeBit ((ino - 1) / fs.inodesPerGroup) ((ino - 1) % fs.inodesPerGroup)
      bit).setFreeInodes ((ino - 1) / fs.inodesPerGroup) n) ino' ↔ Live fs v ino' := by
  have hbit : 0 < ino' →
      ((v.setInodeBit ((ino - 1) / fs.inodesPerGroup) ((ino - 1) % fs.inodesPerGroup)
        bit).setFreeInodes ((ino - 1) / fs.inodesPerGroup) n).inodeBitmap
          ((ino' - 1) / fs.inodesPerGroup) ((ino' - 1) % fs.inodesPerGroup) =
        v.inodeBitmap ((ino' - 1) / fs.inodesPerGroup) ((ino' - 1) % fs.inodesPerGroup) := by
    intro hpos'
    simp only [setInodeBit, setFreeInodes]
    by_cases hgroup : (ino' - 1) / fs.inodesPerGroup = (ino - 1) / fs.inodesPerGroup
    · rw [hgroup, update_self, update_of_ne]
      intro hindex
      -- Two inodes with the same bit are the same.
      have hdiv := Nat.div_add_mod (ino - 1) fs.inodesPerGroup
      have hdiv' := Nat.div_add_mod (ino' - 1) fs.inodesPerGroup
      rw [hgroup, hindex] at hdiv'
      exact hne (by omega)
    · rw [update_of_ne hgroup]
  constructor <;> rintro ⟨hpos', hle, hset⟩
  · exact ⟨hpos', hle, (hbit hpos').symm.trans hset⟩
  · exact ⟨hpos', hle, (hbit hpos').trans hset⟩

/-- What `ext2_alloc_inode` returns: zero, or an inode that was not in use. -/
structure InodeAllocated (fs : Layout) (v : Volume) (ino : Nat) (v' : Volume) : Prop where
  blocks : SameBlocks v v'
  keeps : KeepsLive fs v v'
  dead : ino ≠ 0 → ¬ Live fs v ino
  only : ∀ ino', Live fs v' ino' → Live fs v ino' ∨ ino' = ino
  mem : v'.mem <:+ v.mem

theorem InodeAllocated.none (h : v.SameDisk v') : InodeAllocated fs v 0 v' := by
  obtain ⟨mem, hmem, rfl⟩ := h
  exact ⟨⟨rfl, rfl⟩, fun _ hlive => ⟨hlive, rfl⟩, absurd rfl, fun _ => .inl, hmem⟩

theorem allocInodeInGroup_spec (fs : Layout) (v : Volume) (g : Nat) :
    InodeAllocated fs v (allocInodeInGroup fs v g).1 (allocInodeInGroup fs v g).2 := by
  unfold allocInodeInGroup
  split
  · exact .none (.refl v)
  rcases hk : v.kmalloc with ⟨_ | _, v1⟩ <;> have hsame := sameDisk_kmalloc hk
  · exact .none hsame
  simp only [if_true]
  split
  · exact .none hsame
  rename_i i hfind
  obtain ⟨mem, hmem, rfl⟩ := hsame
  have hi : i < fs.inodesPerGroup := mem_range.mp (mem_of_find?_eq_some hfind)
  have hfree : v.inodeBitmap g i = false := by simpa using find?_some hfind
  have hgroup : (g * fs.inodesPerGroup + i + 1 - 1) / fs.inodesPerGroup = g := by
    rw [Nat.add_sub_cancel, mul_comm, Nat.mul_add_div fs.inodesPerGroup_pos,
      Nat.div_eq_of_lt hi, add_zero]
  have hindex : (g * fs.inodesPerGroup + i + 1 - 1) % fs.inodesPerGroup = i := by
    rw [Nat.add_sub_cancel, mul_comm, Nat.mul_add_mod, Nat.mod_eq_of_lt hi]
  have hdead : ¬ Live fs v (g * fs.inodesPerGroup + i + 1) := by
    rintro ⟨-, -, hbit⟩
    rw [hgroup, hindex, hfree] at hbit
    cases hbit
  have hset : ∀ ino, ino ≠ g * fs.inodesPerGroup + i + 1 → (Live fs
      ((Volume.setInodeBit { v with mem := mem } g i true).setFreeInodes g
        (v.freeInodes g - 1)) ino ↔ Live fs v ino) := by
    intro ino hne
    have hset : _ ↔ Live fs v ino := live_setInodeBit_of_ne { v with mem := mem }
      (Nat.succ_pos _) hne true (v.freeInodes g - 1)
    rwa [hgroup, hindex] at hset
  refine ⟨⟨rfl, rfl⟩, fun ino hlive => ⟨?_, rfl⟩, fun _ => hdead, fun ino hlive => ?_, hmem⟩
  · exact (hset ino fun heq => hdead (heq ▸ hlive)).mpr hlive
  · by_cases hne : ino = g * fs.inodesPerGroup + i + 1
    · exact .inr hne
    · exact .inl ((hset ino hne).mp hlive)

theorem allocInodeIn_spec (fs : Layout) (v : Volume) (gs : List Nat) :
    InodeAllocated fs v (allocInodeIn fs v gs).1 (allocInodeIn fs v gs).2 := by
  induction gs generalizing v with
  | nil => exact .none (.refl v)
  | cons g gs ih =>
    have hfirst := allocInodeInGroup_spec fs v g
    rw [allocInodeIn]
    rcases hr : allocInodeInGroup fs v g with ⟨ino, v1⟩
    rw [hr] at hfirst
    have hrest := ih v1
    simp only
    split
    · exact hfirst
    case isFalse hzero =>
    refine ⟨hfirst.blocks.trans hrest.blocks, hfirst.keeps.trans hrest.keeps, fun hne hlive => ?_,
      fun ino' hlive => ?_, hrest.mem.trans hfirst.mem⟩
    · exact hrest.dead hne (hfirst.keeps _ hlive).1
    rcases hrest.only ino' hlive with hlive | heq
    · refine .inl ((hfirst.only ino' hlive).resolve_right ?_)
      rintro rfl
      exact hzero (Nat.ne_of_gt hlive.1)
    · exact .inr heq

theorem allocInode_spec {group} (hr : allocInode fs v group = (ino, v')) :
    InodeAllocated fs v ino v' := by
  have halloc := allocInodeIn_spec fs v (group :: (range fs.groupCount).filter (· ≠ group))
  rwa [← allocInode, hr] at halloc

/-- An inode is written, or not. -/
theorem writeInode_spec (fs : Layout) (v : Volume) (ino : Nat) (c : Inode) :
    SameBlocks v (writeInode fs v ino c).2 ∧ (writeInode fs v ino c).2.inodeBitmap = v.inodeBitmap ∧
      ((writeInode fs v ino c).2.inodes = v.inodes ∨
        (writeInode fs v ino c).2.inodes = Function.update v.inodes ino c) := by
  unfold writeInode
  iterate 2
    split
    · exact ⟨⟨rfl, rfl⟩, rfl, .inl rfl⟩
  rcases hk : v.kmalloc with ⟨ok, v1⟩
  obtain ⟨mem, -, rfl⟩ := sameDisk_kmalloc hk
  cases ok
  case false => exact ⟨⟨rfl, rfl⟩, rfl, .inl rfl⟩
  case true => exact ⟨⟨rfl, rfl⟩, rfl, .inr rfl⟩

theorem writeInode_of_ample (hample : v.Ample) (hro : ¬ fs.readOnly) (hpos : 0 < ino)
    (hle : ino ≤ fs.inodesCount) (c : Inode) : (writeInode fs v ino c).2.inodes ino = c := by
  have hrng : ¬ (ino = 0 ∨ ino > fs.inodesCount) := by omega
  unfold writeInode
  rw [if_neg hro, if_neg hrng]
  rcases hk : v.kmalloc with ⟨ok, v1⟩
  cases hample.kmalloc hk
  exact update_self _ _ _

/-- An inode is freed, or not. -/
theorem freeInode_spec (fs : Layout) (v : Volume) (ino : Nat) :
    SameBlocks v (freeInode fs v ino) ∧ (freeInode fs v ino).inodes = v.inodes ∧
      (∀ ino', ino' ≠ ino → (Live fs (freeInode fs v ino) ino' ↔ Live fs v ino')) ∧
      (Live fs (freeInode fs v ino) ino → Live fs v ino ∧ (firstIno ≤ ino → ¬ v.Ample)) := by
  unfold freeInode
  split
  case isTrue hrng =>
    refine ⟨⟨rfl, rfl⟩, rfl, fun _ _ => Iff.rfl, fun hlive => ⟨hlive, fun hfirst => ?_⟩⟩
    exact absurd hrng (not_or.mpr ⟨not_lt.mpr hfirst, not_lt.mpr hlive.2.1⟩)
  rename_i hrng
  have hpos : 0 < ino := by
    have hfirst := not_lt.mp (not_or.mp hrng).1
    exact lt_of_lt_of_le (by decide) hfirst
  rcases hk : v.kmalloc with ⟨ok, v1⟩
  obtain ⟨mem, -, rfl⟩ := sameDisk_kmalloc hk
  cases ok
  case false =>
    refine ⟨⟨rfl, rfl⟩, rfl, fun _ _ => Iff.rfl, fun hlive => ⟨hlive, fun _ hample => ?_⟩⟩
    cases hample.kmalloc hk
  case true =>
    refine ⟨⟨rfl, rfl⟩, rfl, fun ino' hne => ?_, fun hlive => ?_⟩
    · exact live_setInodeBit_of_ne { v with mem := mem } hpos hne false _
    · simp [Live, setInodeBit, setFreeInodes] at hlive

theorem freeInode_keepsLive (hdead : ¬ Live fs v ino) (h : KeepsLive fs v v') :
    KeepsLive fs v (freeInode fs v' ino) := by
  obtain ⟨-, hinodes, hlive, -⟩ := freeInode_spec fs v' ino
  intro ino' hlive'
  obtain ⟨hnew, heq⟩ := h ino' hlive'
  refine ⟨(hlive ino' fun hino => hdead (hino ▸ hlive')).mpr hnew, ?_⟩
  rw [hinodes]
  exact heq

/-- Inodes that come into use are new ones. -/
def OnlyNew (fs : Layout) (type : FileType) (v v' : Volume) : Prop :=
  ∀ ino, Live fs v' ino → ¬ Live fs v ino → v'.inodes ino = newInode type

theorem OnlyNew.freeInode {type} (h : OnlyNew fs type v v') (ino : Nat) :
    OnlyNew fs type v (freeInode fs v' ino) := by
  obtain ⟨-, hinodes, hother, hself⟩ := freeInode_spec fs v' ino
  intro ino' hlive hdead
  rw [hinodes]
  refine h ino' ?_ hdead
  by_cases hne : ino' = ino
  · exact hne ▸ (hself (hne ▸ hlive)).1
  · exact (hother ino' hne).mp hlive

theorem OnlyNew.sameInodes {type} (h : OnlyNew fs type v v') (hsame : SameInodes v' v'') :
    OnlyNew fs type v v'' := by
  intro ino hlive hdead
  rw [hsame.inodes]
  exact h ino ((live_congr hsame).mp hlive) hdead

theorem OnlyNew.refl (type : FileType) (v : Volume) : OnlyNew fs type v v :=
  fun _ hlive hdead => absurd hlive hdead

/-- A new inode does not disturb the others. -/
theorem dirCreate_spec {parent} (name : List UInt8) (type : FileType)
    (h : ∃ owner, Owned fs v (addCopy C parent.ino parent.inode) owner)
    (hfile : parent.inode.IsFile) : (∃ owner, Owned fs (dirCreate fs v parent name type).2.1
        (addCopy C parent.ino (dirCreate fs v parent name type).2.2.inode) owner) ∧
      KeepsLive fs v (dirCreate fs v parent name type).2.1 ∧
      (v.Ample → OnlyNew fs type v (dirCreate fs v parent name type).2.1) ∧
      (dirCreate fs v parent name type).2.2.ino = parent.ino := by
  obtain ⟨owner, h⟩ := h
  unfold dirCreate
  split
  · exact ⟨⟨owner, h⟩, fun ino hlive => ⟨hlive, rfl⟩, fun _ => .refl type v, rfl⟩
  case isFalse hro =>
  rcases hr : dirFinddir fs v parent name with ⟨existing, v1⟩
  have hfind := (dirFinddir_spec hr).1
  have howned := h.grows hfind.grows
  have hkeeps : KeepsLive fs v v1 := (SameInodes.of_sameDisk hfind).keepsLive
  have hnone : OnlyNew fs type v v1 := (OnlyNew.refl type v).sameInodes (.of_sameDisk hfind)
  cases existing
  case some => exact ⟨⟨owner, howned⟩, hkeeps, fun _ => hnone, rfl⟩
  case none =>
  simp only
  rcases hr' : allocInode fs v1 (fs.inodeGroup parent.ino) with ⟨ino, v2⟩
  have halloc := allocInode_spec hr'
  have howned' := howned.sameBlocks halloc.blocks
  have hkeeps' := hkeeps.trans halloc.keeps
  have honly : ∀ ino', Live fs v2 ino' → ¬ Live fs v ino' → ino' = ino := fun ino' hlive hdead =>
    (halloc.only ino' hlive).resolve_left fun hlive =>
      hdead ((live_congr (.of_sameDisk hfind)).mp hlive)
  split
  case isTrue hzero =>
    refine ⟨⟨owner, howned'⟩, hkeeps', fun _ ino' hlive hdead => ?_, rfl⟩
    exact absurd ((honly ino' hlive hdead).trans hzero) (Nat.ne_of_gt hlive.1)
  case isFalse hne =>
  have hdead : ¬ Live fs v ino := fun hlive => halloc.dead hne (hkeeps ino hlive).1
  obtain ⟨hblocks, hbitmap, hinodes⟩ := writeInode_spec fs v2 ino (newInode type)
  rcases hr'' : writeInode fs v2 ino (newInode type) with ⟨err, v3⟩
  rw [hr''] at hblocks hbitmap hinodes
  have howned'' := howned'.sameBlocks hblocks
  have hkeeps'' : KeepsLive fs v v3 := by
    intro ino' hlive
    obtain ⟨hlive', heq⟩ := hkeeps' ino' hlive
    constructor
    · unfold Live
      rwa [hbitmap]
    rcases hinodes with hinodes | hinodes
    · rw [hinodes, heq]
    · rw [hinodes, update_of_ne, heq]
      exact fun hino => hdead (hino ▸ hlive)
  have hnew : v.Ample → OnlyNew fs type v v3 := by
    intro hample ino' hlive hdead'
    unfold Live at hlive
    rw [hbitmap] at hlive
    cases honly ino' hlive hdead'
    have hwritten := writeInode_of_ample (hample.spent (halloc.mem.trans hfind.mem)) hro hlive.1
      hlive.2.1 (newInode type)
    rwa [hr''] at hwritten
  split
  · exact ⟨⟨owner, howned''.sameBlocks (freeInode_spec fs v3 ino).1⟩,
      freeInode_keepsLive hdead hkeeps'', fun hample => (hnew hample).freeInode ino, rfl⟩
  obtain ⟨hcarried, hino⟩ := addDirEntry_spec ino name type.code ⟨owner, howned''⟩ hfile
  rcases hr3 : addDirEntry fs v3 parent ino name type.code with ⟨err', v4, parent'⟩
  rw [hr3] at hcarried hino
  obtain ⟨⟨owner', howned3⟩, hsame, -⟩ := hcarried
  have hkeeps3 := hkeeps''.trans hsame.keepsLive
  have hnew3 := fun hample => (hnew hample).sameInodes hsame
  split
  · exact ⟨⟨owner', howned3.sameBlocks (freeInode_spec fs v4 ino).1⟩,
      freeInode_keepsLive hdead hkeeps3, fun hample => (hnew3 hample).freeInode ino, hino⟩
  · exact ⟨⟨owner', howned3⟩, hkeeps3, hnew3, hino⟩

/-! ### Mounted volumes -/

namespace Mount

section

variable (fs : Layout) (s : Mount)

/-- The copies of inodes: those in use on the device, and those of the nodes. -/
def copies (ino : Nat) (c : Inode) : Prop :=
  (Live fs s.vol ino ∧ s.vol.inodes ino = c) ∨
    ∃ n ∈ s.addrs, (s.node n).ino = ino ∧ (s.node n).inode = c

/-- Block `b` is reached at place `p` from an inode in use. -/
def Reach : Place → Nat → Prop :=
  Reaches (rootOf (s.copies fs)) s.vol.link fun p _ => p.child fs

/-- Every block that is reached is in use and holds no metadata, and is reached at one place
only. Nodes are for inodes in use; metadata and the end of the bitmap are marked. -/
structure Consistent : Prop where
  unique : ∀ p q b, s.Reach fs p b → s.Reach fs q b → p = q
  used : ∀ p b, s.Reach fs p b → s.vol.used fs b = true
  inRange : ∀ p b, s.Reach fs p b → fs.InRange b ∧ fs.isMeta b = false
  metas : ∀ b, fs.InRange b → fs.isMeta b = true → s.vol.used fs b = true
  padded : s.vol.Padded fs
  nodes : ∀ n ∈ s.addrs, Live fs s.vol (s.node n).ino

end

variable {s s' : Mount} {n : Nat}

theorem Consistent.owned (h : s.Consistent fs) : ∃ owner, Owned fs s.vol (s.copies fs) owner := by
  obtain ⟨owner, hlabels, hreach⟩ := exists_labels h.unique
  refine ⟨owner, hlabels, fun b p hp => ?_, h.metas, h.padded⟩
  have hp := hreach p b hp
  exact ⟨(h.inRange p b hp).1, h.used p b hp, (h.inRange p b hp).2⟩

/-- The copies are among those that have owners. -/
theorem Consistent.of_copies (h : ∃ owner, Owned fs s.vol C owner)
    (hdisk : ∀ ino, Live fs s.vol ino → C ino (s.vol.inodes ino))
    (hnodes : ∀ n ∈ s.addrs, C (s.node n).ino (s.node n).inode ∧ Live fs s.vol (s.node n).ino) :
    s.Consistent fs := by
  obtain ⟨owner, h⟩ := h
  have hcopies : Owned fs s.vol (s.copies fs) owner := by
    refine h.subset ?_
    rintro ino c (⟨hlive, rfl⟩ | ⟨n, hn, rfl, rfl⟩)
    · exact hdisk ino hlive
    · exact (hnodes n hn).1
  have hval := fun p b (hp : s.Reach fs p b) => h.valid b p (hcopies.labels.owner_eq hp)
  exact
    { unique := fun p q b hp hq =>
        Option.some_inj.mp ((hcopies.labels.owner_eq hp).symm.trans (hcopies.labels.owner_eq hq))
      used := fun p b hp => (hval p b hp).2.1
      inRange := fun p b hp => ⟨(hval p b hp).1, (hval p b hp).2.2⟩
      metas := h.metas
      padded := h.padded
      nodes := fun n hn => (hnodes n hn).2 }

/-- The copy of a node. -/
theorem node_copy (hn : n ∈ s.addrs) : s.copies fs (s.node n).ino (s.node n).inode :=
  .inr ⟨n, hn, rfl, rfl⟩

section

variable (howned : ∃ owner, Owned fs v' (addCopy (s.copies fs) (s.node n).ino node.inode) owner)
include howned

section

variable (h : s.Consistent fs) (hn : n ∈ s.addrs) (hino : node.ino = (s.node n).ino)
include h hn hino

/-- A call changes one node, and inodes in use only if they are new and without blocks. -/
theorem Consistent.update (hkeeps : KeepsLive fs s.vol v')
    (hnew : ∀ ino, Live fs v' ino → ¬ Live fs s.vol ino →
      ∀ t < nBlocks, (v'.inodes ino).iBlock t = 0)
    : (s.update v' n node).Consistent fs := by
  obtain ⟨owner, howned⟩ := howned
  refine .of_copies ⟨owner, howned.blank⟩ (fun ino hlive => ?_) fun m hm => ?_
  · by_cases hold : Live fs s.vol ino
    · exact .inl (.inl (.inl ⟨hold, (hkeeps ino hold).2.symm⟩))
    · exact .inr (hnew ino hlive hold)
  by_cases heq : m = n
  · subst heq
    simp only [Mount.update, update_self, hino]
    exact ⟨.inl (.inr ⟨rfl, rfl⟩), (hkeeps _ (h.nodes m hn)).1⟩
  · simp only [Mount.update, update_of_ne heq]
    exact ⟨.inl (.inl (node_copy hm)), (hkeeps _ (h.nodes m hm)).1⟩

/-- Nothing new is in use when the inode bitmap is as it was. -/
theorem Consistent.updateSame (hsame : SameInodes s.vol v') : (s.update v' n node).Consistent fs :=
  h.update howned hn hino hsame.keepsLive fun _ hlive hdead =>
    absurd ((live_congr hsame).mp hlive) hdead

end

end

/-- No node is for this inode. -/
def NotOpen (s : Mount) (ino : Nat) : Prop := ∀ n ∈ s.addrs, (s.node n).ino ≠ ino
deriving Decidable

/-- The last name of an inode is removed: nothing else refers to the inode, it has blocks that
can be freed, its number is not reserved, and there is memory to give it back. -/
def UnlinkSafe (fs : Layout) (s : Mount) (target : Node) : Prop :=
  target.inode.iMode = .directory ∨
    (Live fs s.vol target.ino ∧
      (sub16 target.inode.iLinksCount 1 = 0 →
        s.NotOpen target.ino ∧ (target.inode.HasBlocks ∨ target.inode.iSize = 0) ∧
          firstIno ≤ target.ino ∧ s.vol.Ample))
deriving Decidable

/-- Names lead to inodes in use; a file that shrinks has no blocks behind its new end; there is
memory for a new inode; and files that are removed for good are not open. -/
def Careful (fs : Layout) (s : Mount) : Call → Prop
  | .lookup parent name _ =>
    ∀ node ∈ (dirFinddir fs s.vol (s.node parent) name).1, Live fs s.vol node.ino
  | .truncate n size =>
    size < (s.node n).inode.iSize → ∀ l < (s.node n).inode.numBlocks fs,
      (size + fs.blockSize - 1) / fs.blockSize ≤ l → mapBlock fs s.vol (s.node n).inode l = 0
  | .create _ _ _ => s.vol.Ample
  | .unlink parent name =>
    ∀ target ∈ (dirFinddir fs s.vol (s.node parent) name).1, UnlinkSafe fs s target
  | _ => True

instance (fs : Layout) (s : Mount) (call : Call) : Decidable (Careful fs s call) := by
  cases call <;> unfold Careful <;> infer_instance

/-! ### Every careful call -/

namespace Consistent

theorem write (h : s.Consistent fs) (hn : s.Has n .regular) (src : Buffer) (size offset : Nat) :
    (s.update (fileWrite fs s.vol (s.node n) src size offset).2.1 n
      (fileWrite fs s.vol (s.node n) src size offset).2.2).Consistent fs := by
  obtain ⟨owner, howned⟩ := h.owned
  obtain ⟨hcarried, hino⟩ := fileWrite_spec src size offset
    ⟨owner, howned.copy (node_copy hn.1) rfl id⟩ (.inl hn.2)
  exact h.updateSame hcarried.owned hn.1 hino hcarried.same

section

variable (h : s.Consistent fs)
include h

theorem truncate (hn : s.Has n .regular) {size} (hcare : Careful fs s (.truncate n size)) :
    (s.update (fileTruncate fs s.vol (s.node n) size).2.1 n
      (fileTruncate fs s.vol (s.node n) size).2.2).Consistent fs := by
  obtain ⟨owner, howned⟩ := h.owned
  have hhas := Inode.IsFile.hasBlocks (.inl hn.2)
  unfold fileTruncate
  split
  · exact h.updateSame ⟨owner, howned.copy (node_copy hn.1) rfl id⟩ hn.1 rfl ⟨rfl, rfl⟩
  simp only
  split
  case isFalse =>
    exact h.updateSame ⟨owner, howned.copy (node_copy hn.1) rfl fun _ => hhas⟩ hn.1 rfl ⟨rfl, rfl⟩
  case isTrue hshrinks =>
  obtain ⟨hdisk, hinode⟩ := freeBlocksFrom_unmapped (hcare hshrinks)
  refine h.updateSame ⟨owner, ?_⟩ hn.1 rfl (.of_sameDisk hdisk)
  exact (howned.grows hdisk.grows).copy (node_copy hn.1) (by rw [hinode]) fun _ => hhas

theorem create (hn : s.Has n .directory) {type : FileType}
    (hcare : Careful fs s (.create n name type)) :
    (s.update (dirCreate fs s.vol (s.node n) name type).2.1 n
      (dirCreate fs s.vol (s.node n) name type).2.2).Consistent fs := by
  obtain ⟨owner, howned⟩ := h.owned
  obtain ⟨howned', hkeeps, hnew, hino⟩ := dirCreate_spec name type
    ⟨owner, howned.copy (node_copy hn.1) rfl id⟩ (.inr hn.2)
  refine h.update howned' hn.1 hino hkeeps fun ino hlive hdead t _ => ?_
  rw [hnew hcare ino hlive hdead]
  rfl

/-- The volume is changed, but for inodes. -/
theorem volume (howned : ∃ owner, Owned fs v' (s.copies fs) owner) (hsame : SameInodes s.vol v') :
    ({ s with vol := v' } : Mount).Consistent fs := by
  refine .of_copies howned (fun ino hlive => .inl ⟨(live_congr hsame).mp hlive, ?_⟩) fun m hm =>
    ⟨node_copy hm, (live_congr hsame).mpr (h.nodes m hm)⟩
  exact (congrFun hsame.inodes ino).symm

/-- An inode is written, with pointers that agree with all copies. -/
theorem writeInode (howned : ∃ owner, Owned fs v' (addCopy (s.copies fs) ino c) owner)
    (hbitmap : v'.inodeBitmap = s.vol.inodeBitmap)
    (hinodes : v'.inodes = s.vol.inodes ∨ v'.inodes = Function.update s.vol.inodes ino c) :
    ({ s with vol := v' } : Mount).Consistent fs := by
  have hlives : ∀ ino', Live fs v' ino' ↔ Live fs s.vol ino' := by
    intro ino'
    unfold Live
    rw [hbitmap]
  refine .of_copies howned (fun ino' hlive => ?_) fun m hm =>
    ⟨.inl (node_copy hm), (hlives _).mpr (h.nodes m hm)⟩
  replace hlive := (hlives ino').mp hlive
  rcases hinodes with hinodes | hinodes
  · rw [hinodes]
    exact .inl (.inl ⟨hlive, rfl⟩)
  by_cases heq : ino' = ino
  · rw [hinodes, heq, update_self]
    exact .inr ⟨rfl, rfl⟩
  · rw [hinodes, update_of_ne heq]
    exact .inl (.inl ⟨hlive, rfl⟩)

theorem close (hn : n ∈ s.addrs) : (s.update (syncInode fs s.vol (s.node n)).1 n
      (syncInode fs s.vol (s.node n)).2).Consistent fs := by
  have hself : ∀ v : Volume, s.update v n (s.node n) = { s with vol := v } := by
    intro v
    unfold Mount.update
    rw [update_eq_self]
  obtain ⟨owner, howned⟩ := h.owned
  obtain ⟨hblocks, hbitmap, hinodes⟩ := writeInode_spec fs s.vol (s.node n).ino (s.node n).inode
  have hwr := h.writeInode
    ⟨owner, (howned.copy (node_copy hn) rfl id).sameBlocks hblocks⟩ hbitmap hinodes
  unfold syncInode
  split
  · rw [hself]
    exact h
  simp only
  split
  · obtain ⟨owner', howned'⟩ := hwr.owned
    refine hwr.updateSame ?_ hn rfl ⟨rfl, rfl⟩
    exact ⟨owner', howned'.copy (node_copy hn) rfl id⟩
  · rw [hself]
    exact hwr

theorem lookup (hn : s.Has n .directory) {new} (hnew : new ∉ s.addrs)
    (hcare : Careful fs s (.lookup n name new))
    (hstep : s.step fs (.lookup n name new) = some s') : s'.Consistent fs := by
  obtain ⟨owner, howned⟩ := h.owned
  simp only [Careful] at hcare
  simp only [Mount.step, if_pos (And.intro hn hnew)] at hstep
  rcases hr : dirFinddir fs s.vol (s.node n) name with ⟨found, v1⟩
  obtain ⟨hsame, hnode⟩ := dirFinddir_spec hr
  rw [hr] at hcare
  simp only [hr] at hstep
  have hvolume := h.volume ⟨owner, howned.grows hsame.grows⟩ (.of_sameDisk hsame)
  cases found
  case none =>
    cases hstep
    exact hvolume
  case some node =>
  cases hstep
  have hlive : Live fs v1 node.ino := (live_congr (.of_sameDisk hsame)).mpr (hcare node rfl)
  have hinode : v1.inodes node.ino = node.inode :=
    (congrFun (SameInodes.of_sameDisk hsame).inodes _).trans (hnode node rfl).symm
  -- The new node is a copy of what is on the device.
  refine .of_copies hvolume.owned (fun ino hlive' => .inl ⟨hlive', rfl⟩) fun m hm => ?_
  by_cases heq : m = new
  · subst heq
    simp only [Mount.update, update_self]
    exact ⟨.inl ⟨hlive, hinode⟩, hlive⟩
  · simp only [Mount.update, update_of_ne heq]
    have hold := Finset.mem_of_mem_insert_of_ne hm heq
    exact ⟨.inr ⟨m, hold, rfl, rfl⟩, hvolume.nodes m hold⟩

/-- The last name of an inode is gone. -/
theorem freeFile (hc : s.copies fs ino c) (hopen : s.NotOpen ino) (hhas : c.HasBlocks ∨ c.iSize = 0)
    (hfirst : firstIno ≤ ino) (hample : s.vol.Ample) :
    ({ s with vol := freeInode fs (freeBlocksFrom fs s.vol c 0).1 ino } : Mount).Consistent fs := by
  obtain ⟨owner, howned⟩ := h.owned
  have hfrees := freeBlocksFrom_frees howned hc hhas 0
  obtain ⟨hblocks, hinodes, hlives, hdead⟩ := freeInode_spec fs (freeBlocksFrom fs s.vol c 0).1 ino
  have hsame : SameInodes s.vol (freeBlocksFrom fs s.vol c 0).1 :=
    ⟨hfrees.inodes, hfrees.inodeBitmap⟩
  have hdropped := howned.drop ino fun _ _ hc => hc
  refine .of_copies ⟨_, (hdropped.frees hfrees fun b hb => ?_).sameBlocks hblocks⟩
    (fun ino' hlive => ?_) fun m hm => ⟨⟨node_copy hm, hopen m hm⟩,
      (hlives _ (hopen m hm)).mpr ((live_congr hsame).mpr (h.nodes m hm))⟩
  · obtain ⟨p, hp, hino⟩ := hb
    refine ⟨?_, (howned.valid b p hp).2.2⟩
    rw [hp]
    simp [hino]
  · have hne : ino' ≠ ino := fun heq =>
      (hdead (heq ▸ hlive)).2 hfirst (hample.spent hfrees.mem)
    refine ⟨.inl ⟨(live_congr hsame).mp ((hlives ino' hne).mp hlive), ?_⟩, hne⟩
    exact (congrFun (hinodes.trans hsame.inodes) ino').symm

theorem unlink (hn : s.Has n .directory) (hcare : Careful fs s (.unlink n name)) :
    ({ s with vol := (dirUnlink fs s.vol (s.node n) name).2 } : Mount).Consistent fs := by
  obtain ⟨owner, howned⟩ := h.owned
  have hhas := Inode.IsFile.hasBlocks (.inr hn.2)
  simp only [Careful] at hcare
  unfold dirUnlink
  split
  · exact h
  rcases hr : dirFinddir fs s.vol (s.node n) name with ⟨found, v1⟩
  obtain ⟨hsame, hnode⟩ := dirFinddir_spec hr
  have howned1 := howned.grows hsame.grows
  have hsame1 : SameInodes s.vol v1 := .of_sameDisk hsame
  cases found
  case none => exact h.volume ⟨owner, howned1⟩ hsame1
  case some target =>
  rw [hr] at hcare
  simp only
  split
  · exact h.volume ⟨owner, howned1⟩ hsame1
  case isFalse hdir =>
  rcases hr2 : removeDirEntry fs v1 (s.node n) name with ⟨err, v2⟩
  obtain ⟨howned2, hsame2, hmem⟩ := removeDirEntry_spec howned1 (node_copy hn.1) hhas hr2
  have hvolume := h.volume ⟨owner, howned2⟩ (hsame1.trans hsame2)
  split
  · exact hvolume
  obtain ⟨hlive, hsafe⟩ := (hcare target rfl).resolve_left hdir
  have hinode : v2.inodes target.ino = target.inode :=
    (congrFun (hsame1.trans hsame2).inodes _).trans (hnode target rfl).symm
  have hcopy : ({ s with vol := v2 } : Mount).copies fs target.ino target.inode :=
    .inl ⟨(live_congr (hsame1.trans hsame2)).mpr hlive, hinode⟩
  unfold dropLink
  simp only
  split
  case isTrue hlast =>
    obtain ⟨hopen, hhas', hfirst, hample⟩ := hsafe hlast
    exact hvolume.freeFile hcopy hopen hhas' hfirst (hample.spent (hmem.trans hsame.mem))
  obtain ⟨owner', howned'⟩ := hvolume.owned
  obtain ⟨hblocks, hbitmap, hinodes⟩ := writeInode_spec fs v2 target.ino
    { target.inode with iLinksCount := sub16 target.inode.iLinksCount 1 }
  have hcopied : Owned fs v2 (addCopy (Mount.copies fs { s with vol := v2 }) target.ino
      { target.inode with iLinksCount := sub16 target.inode.iLinksCount 1 }) owner' :=
    howned'.copy hcopy rfl id
  exact hvolume.writeInode ⟨owner', hcopied.sameBlocks hblocks⟩ hbitmap hinodes

theorem free (n : Nat) : ({ s with addrs := s.addrs.erase n } : Mount).Consistent fs := by
  refine .of_copies h.owned (fun ino hlive => .inl ⟨hlive, rfl⟩) fun m hm => ?_
  have hold := Finset.mem_of_mem_erase hm
  exact ⟨node_copy hold, h.nodes m hold⟩

theorem step {call} (hcare : Careful fs s call) (hstep : s.step fs call = some s') :
    s'.Consistent fs := by
  cases call with
  | lookup parent name new =>
    obtain ⟨⟨hn, hnew⟩, -⟩ := Option.ite_none_right_eq_some.mp hstep
    exact h.lookup hn hnew hcare hstep
  | write n src size offset =>
    obtain ⟨hn, rfl⟩ := ite_eq_some hstep
    exact h.write hn src size offset
  | truncate n size =>
    obtain ⟨hn, rfl⟩ := ite_eq_some hstep
    exact h.truncate hn hcare
  | create parent name type =>
    obtain ⟨hn, rfl⟩ := ite_eq_some hstep
    exact h.create hn hcare
  | unlink parent name =>
    obtain ⟨hn, rfl⟩ := ite_eq_some hstep
    exact h.unlink hn hcare
  | close n =>
    obtain ⟨hn, rfl⟩ := ite_eq_some hstep
    exact h.close hn
  | free n =>
    cases hstep
    exact h.free n

end

end Consistent

end Mount

/-! ### Whole histories -/

/-- In every history of careful calls from a consistent volume, every block that is reached
from an inode in use is marked and is reached at one place. -/
theorem block_ownership {s s' : Mount} {calls : List Call} (h : s.Consistent fs)
    (hrun : GuardedRun (Mount.step fs) (Mount.Careful fs) s calls s') : s'.Consistent fs :=
  hrun.inv (Mount.Consistent fs) (fun _ _ _ h => h.step) h

/-- Without pointers there is nothing to be reached. -/
theorem Mount.Consistent.of_no_blocks {s : Mount}
    (hzero : ∀ ino c, s.copies fs ino c → ∀ t, c.iBlock t = 0)
    (hmetas : ∀ b, fs.InRange b → fs.isMeta b = true → s.vol.used fs b = true)
    (hpadded : s.vol.Padded fs) (hnodes : ∀ n ∈ s.addrs, Live fs s.vol (s.node n).ino) :
    s.Consistent fs := by
  have hnone : ∀ p b, ¬ s.Reach fs p b := by
    intro p b hreach
    induction hreach with
    | root hroot =>
      obtain ⟨-, -, hne, c, hc, -, rfl⟩ := hroot
      exact hne (hzero _ c hc _)
    | link _ _ _ ih => exact ih
  exact
    { unique := fun p _ b hp => absurd hp (hnone p b)
      used := fun p b hp => absurd hp (hnone p b)
      inRange := fun p b hp => absurd hp (hnone p b)
      metas := hmetas
      padded := hpadded
      nodes := hnodes }

/-- A volume of 33 blocks, seven of them with metadata. -/
def smallLayout : Layout where
  blockSize := 1024
  blocksPerGroup := 32
  groupCount := 1
  firstDataBlock := 1
  blocksCount := 33
  inodesPerGroup := 16
  inodesCount := 16
  readOnly := false
  isMeta := fun b => decide (b < 8)
  blockSize_pos := by decide
  blocksPerGroup_pos := by decide
  inodesPerGroup_pos := by decide
  blocksCount_lt := by decide
  pointers_lt := by decide

/-- The volume without files, and a node for its root directory. -/
def emptyMount : Mount where
  vol :=
    { blockBitmap := fun g i => decide (1 ≤ g ∨ i < 7)
      freeBlocks := fun _ => 25
      inodeBitmap := fun _ i => decide (i < 10)
      freeInodes := fun _ => 6
      inodes := fun _ => { newInode .directory with iLinksCount := 2 }
      data := fun _ _ => 0
      mem := [] }
  addrs := {0}
  node := fun _ =>
    { ino := 2, inode := { newInode .directory with iLinksCount := 2 }, size := 0, dirty := false }

theorem consistent_emptyMount : emptyMount.Consistent smallLayout := by
  refine .of_no_blocks ?_ ?_ ?_ (by decide)
  · rintro ino c (⟨-, rfl⟩ | ⟨n, -, -, rfl⟩) t <;> rfl
  · rintro b ⟨hfirst, -⟩ hmeta
    have hb : b < 8 := of_decide_eq_true hmeta
    refine decide_eq_true (.inr ?_)
    change (b - 1) % 32 < 7
    omega
  intro g i hi hb
  change i < 32 at hi
  change 33 ≤ g * 32 + i + 1 at hb
  refine decide_eq_true (.inl ?_)
  omega

/-- A file is written through its indirect block, grown, cut, closed and removed. -/
def writeAndUnlink : List Call :=
  [.create 0 [97] .regular, .lookup 0 [97] 1, .write 1 (fun _ => 5) 7 1000,
    .write 1 (fun _ => 6) 3 12290, .truncate 1 20000, .truncate 1 13500, .close 1, .free 1,
    .create 0 [98] .regular, .unlink 0 [97]]

theorem block_ownership_writeAndUnlink :
    ∃ s, GuardedRun (Mount.step smallLayout) (Mount.Careful smallLayout) emptyMount
        writeAndUnlink s ∧ s.vol.used smallLayout 8 = true ∧ s.vol.used smallLayout 9 = false ∧
      s.Consistent smallLayout := by
  apply exists_and_of₂ (by decide +kernel)
  intro s hrun _ _
  exact block_ownership consistent_emptyMount hrun

/-- A file of one byte is truncated: its first pointer leads to a block that is free. -/
theorem truncate_keeps_pointers :
    emptyMount.Consistent smallLayout ∧
    ∃ s, run (Mount.step smallLayout) emptyMount
        [.create 0 [97] .regular, .lookup 0 [97] 1, .write 1 (fun _ => 5) 1 0, .truncate 1 0] =
          some s ∧
      s.Reach smallLayout ⟨11, 0, []⟩ 9 ∧ s.vol.used smallLayout 9 = false ∧
      ¬ s.Consistent smallLayout := by
  obtain ⟨s, hcalls, hn, hino, hmode, hblock, hfree⟩ : ∃ s, run (Mount.step smallLayout) emptyMount
      [.create 0 [97] .regular, .lookup 0 [97] 1, .write 1 (fun _ => 5) 1 0, .truncate 1 0] =
        some s ∧ 1 ∈ s.addrs ∧ (s.node 1).ino = 11 ∧ (s.node 1).inode.iMode = .regular ∧
          (s.node 1).inode.iBlock 0 = 9 ∧ s.vol.used smallLayout 9 = false := by
    decide +kernel
  have hreach : s.Reach smallLayout ⟨11, 0, []⟩ 9 :=
    .root ⟨rfl, by decide, by decide, (s.node 1).inode, .inr ⟨1, hn, hino, rfl⟩,
      Inode.IsFile.hasBlocks (.inl hmode), hblock⟩
  refine ⟨consistent_emptyMount, s, hcalls, hreach, hfree, fun h => ?_⟩
  rw [h.used _ _ hreach] at hfree
  cases hfree

end Kurios.Ext2
