import Kurios.Ext2.Owner
import Kurios.Ext2.Dir

/-!
What the file and directory functions of the ext2 driver do to the owners of blocks.

`setBlock_spec` is the step for one block: the new block gets its place, and so do the
pointer blocks that are needed on the way. A write is a loop of such steps, and so is the
growth of a directory.
-/

namespace Kurios.Ext2

open Base Errno Volume Function List

variable {t : Nat} {q : List Nat} {err : Int} {node parent : Node} {name : List UInt8}
  {found : Option Node}

variable {fs : Layout} {v v' v'' : Volume} {C C' : Nat → Inode → Prop}
  {owner : Nat → Option Place} {ino b phys : Nat} {c c' c'' : Inode}

/-! ### What stays -/

/-- The inode table and bitmap are as they were. -/
structure SameInodes (v v' : Volume) : Prop where
  inodes : v'.inodes = v.inodes
  inodeBitmap : v'.inodeBitmap = v.inodeBitmap

namespace SameInodes

theorem trans (h : SameInodes v v') (h' : SameInodes v' v'') : SameInodes v v'' :=
  ⟨h'.inodes.trans h.inodes, h'.inodeBitmap.trans h.inodeBitmap⟩

theorem of_grows (h : v.Grows v') : SameInodes v v' := ⟨h.inodes, h.inodeBitmap⟩

theorem of_frees {S} (h : Frees fs S v v') : SameInodes v v' :=
  ⟨h.inodes, h.inodeBitmap⟩

theorem of_sameDisk (h : v.SameDisk v') : SameInodes v v' := of_grows h.grows

theorem writeBlock (v : Volume) (b : Nat) (buf : Buffer) : SameInodes v (v.writeBlock b buf) :=
  ⟨rfl, rfl⟩

end SameInodes

/-- The pointers of a file with blocks may change, nothing else in its inode that matters. -/
structure SameKind (c c' : Inode) : Prop where
  mode : c'.iMode = c.iMode
  size : c'.iSize = c.iSize

theorem SameKind.trans (h : SameKind c c') (h' : SameKind c' c'') : SameKind c c'' :=
  ⟨h'.mode.trans h.mode, h'.size.trans h.size⟩

/-- The inode of a file or a directory. -/
def Inode.IsFile (c : Inode) : Prop := c.iMode = .regular ∨ c.iMode = .directory

theorem Inode.IsFile.hasBlocks (h : c.IsFile) : c.HasBlocks := by
  unfold HasBlocks
  rcases h with h | h <;> rw [h] <;> trivial

theorem Inode.IsFile.congr (h : c.IsFile) (hsame : c'.iMode = c.iMode) : c'.IsFile := by
  unfold Inode.IsFile
  rw [hsame]
  exact h

namespace Fresh

theorem quiet (h : Fresh fs v owner b) (hq : Quiet fs v v') : Fresh fs v' owner b where
  __ := h
  used := hq.used b h.inRange h.used

theorem writeBlock (h : Fresh fs v owner b) (b' : Nat) (buf : Buffer) :
    Fresh fs (v.writeBlock b' buf) owner b where
  __ := h

theorem setOwner {b'} (h : Fresh fs v owner b) (hne : b ≠ b') (p : Place) :
    Fresh fs v (update owner b' (some p)) b where
  owner := by
    rw [update_of_ne hne]
    exact h.owner
  __ := h

end Fresh

/-! ### One block -/

theorem vfsEnomem_ne_ok : vfsEnomem ≠ vfsOk := by decide

theorem allocZeroed_spec (hpad : v.Padded fs) (group : Nat) :
    (∃ err v', allocZeroed fs v group = (err, 0, v') ∧ err ≠ vfsOk ∧ Quiet fs v v') ∨
      ∃ b v', allocZeroed fs v group = (vfsOk, b, v'.writeBlock b fun _ => 0) ∧ b ≠ 0 ∧
        Allocated fs v b v' := by
  unfold allocZeroed
  rcases hr : allocBlock fs v group with ⟨b, v1⟩
  have halloc := allocBlock_spec hpad hr
  have hgrows := halloc.grows
  simp only
  split
  · exact .inl ⟨_, v1, rfl, by decide, hgrows.quiet⟩
  case isFalse hb =>
  obtain ⟨hrng, hfree, hused⟩ := halloc.block hb
  rcases hk : v1.kmalloc with ⟨ok, v2⟩
  have hgrows' := (sameDisk_kmalloc hk).grows
  cases ok
  case true =>
    exact .inr ⟨b, v2, rfl, hb, hgrows.trans hgrows', fun _ =>
      ⟨hrng, hfree, hgrows'.bits _ _ hused⟩⟩
  case false =>
  -- The block is given back, which was free before.
  have hfrees := freeBlock_frees fs v2 b
  refine .inl ⟨_, freeBlock fs v2 b, rfl, vfsEnomem_ne_ok,
    hfrees.data.trans (hgrows.trans hgrows').data,
    hfrees.inodes.trans (hgrows.trans hgrows').inodes,
    hfrees.inodeBitmap.trans (hgrows.trans hgrows').inodeBitmap, fun b' hb' hused' => ?_,
    fun hpad => (hpad.grows (hgrows.trans hgrows')).frees hfrees⟩
  refine hfrees.used hb'.1 ?_ ((hgrows.trans hgrows').bits _ _ hused')
  rintro rfl
  exact Bool.false_ne_true (hfree.symm.trans hused')

/-- The pointer to a place is set: in the inode, or in the pointer block before it. -/
inductive Put (v : Volume) (c : Inode) (b : Nat) : Nat → List Nat → Volume → Inode → Prop
  | slot (t : Nat) : Put v c b t [] v (c.setSlot t b)
  | word {t x : Nat} {q : List Nat} (k : Nat) (hx : blockAt v c t q = x) (hne : x ≠ 0) :
    Put v c b t (q ++ [k]) (v.setWord x k b) c

section

variable {P : Volume → Inode → Prop} (hpad : ∀ v c, P v c → v.Padded fs)
  (hquiet : ∀ v c v', P v c → Quiet fs v v' → P v' c)
  (htable : ∀ {v c b v1 t q v' c'}, P v c → IsTable fs t q → blockAt v c t q = 0 → b ≠ 0 →
    Allocated fs v b v1 → Put (v1.writeBlock b fun _ => 0) c b t q v' c' → P v' (c'.addBlock fs))
include hpad hquiet htable

theorem slotTable_rule (h : P v c) (ht : IsTable fs t []) (group : Nat) :
    P (slotTable fs v c t group).2.1 (slotTable fs v c t group).2.2 ∧
      ((slotTable fs v c t group).1 = vfsOk → (slotTable fs v c t group).2.2.iBlock t ≠ 0) := by
  unfold slotTable
  split
  case isFalse hslot => exact ⟨h, fun _ => hslot⟩
  case isTrue hslot =>
  rcases allocZeroed_spec (hpad v c h) group with ⟨err, v', heq, herr, hq⟩ |
    ⟨b, v', heq, hb, halloc⟩
  · simp only [heq, if_neg herr]
    exact ⟨hquiet v c v' h hq, fun hok => absurd hok herr⟩
  simp only [heq, if_true]
  refine ⟨htable h ht hslot hb halloc (.slot t), fun _ => ?_⟩
  change update c.iBlock t b t ≠ 0
  rwa [update_self]

/-- `ext2_set_block` puts the block at its place, after the pointer blocks that are needed on
the way: what all these steps keep holds in the end. -/
theorem setBlock_rule {Q : Int → Volume → Inode → Prop} (h : P v c) (l group : Nat)
    (herror : ∀ v c err, P v c → err ≠ vfsOk → Q err v c)
    (hdone : ∀ {v c t path v' c'}, P v c → slotPath fs l = some (t, path) →
      Put v c phys t path v' c' → Q vfsOk v' c') :
    Q (setBlock fs v c l phys group).1 (setBlock fs v c l phys group).2.1
      (setBlock fs v c l phys group).2.2 := by
  unfold setBlock
  simp only
  split
  case isTrue hdirect => exact hdone h (if_pos hdirect) (.slot l)
  case isFalse hdirect =>
  split
  case isTrue hind =>
    have hpath : slotPath fs l = some (indBlock, [] ++ [l - ndirBlocks]) := by
      simp [slotPath, if_neg hdirect, if_pos hind]
    obtain ⟨h1, hslot⟩ := slotTable_rule hpad hquiet htable h
      (isPlace_of_slotPath hpath).parent group
    rcases hr : slotTable fs v c indBlock group with ⟨err, v1, c1⟩
    rw [hr] at h1 hslot
    split
    case isTrue herr => exact herror v1 c1 err h1 herr
    case isFalse herr =>
    rcases hk : v1.kmalloc with ⟨ok, v2⟩
    have h2 := hquiet v1 c1 v2 h1 (sameDisk_kmalloc hk).grows.quiet
    cases ok
    case false => exact herror _ _ _ h2 vfsEnomem_ne_ok
    case true => exact hdone h2 hpath (.word _ rfl (hslot (of_not_not herr)))
  case isFalse hind =>
  split
  case isTrue hdind =>
    generalize hi : (l - ndirBlocks - fs.ptrsPerBlock) / fs.ptrsPerBlock = i
    generalize hj : (l - ndirBlocks - fs.ptrsPerBlock) % fs.ptrsPerBlock = j
    have hpath : slotPath fs l = some (dindBlock, [i] ++ [j]) := by
      simp [slotPath, if_neg hdirect, if_neg hind, if_pos hdind, hi, hj]
    have hchild := (isPlace_of_slotPath hpath).parent
    have hroot : IsTable fs dindBlock [] :=
      (hchild.toIsPlace : IsPlace fs dindBlock ([] ++ [i])).parent
    obtain ⟨h1, hslot⟩ := slotTable_rule hpad hquiet htable h hroot group
    rcases hr : slotTable fs v c dindBlock group with ⟨err, v1, c1⟩
    rw [hr] at h1 hslot
    split
    case isTrue herr => exact herror v1 c1 err h1 herr
    case isFalse herr =>
    replace hslot : c1.iBlock dindBlock ≠ 0 := hslot (of_not_not herr)
    rcases hk : v1.kmalloc with ⟨_ | _, v2⟩ <;>
      have h2 := hquiet v1 c1 v2 h1 (sameDisk_kmalloc hk).grows.quiet
    · exact herror _ _ _ h2 vfsEnomem_ne_ok
    have hat : ∀ v', blockAt v' c1 dindBlock [i] = v'.word (c1.iBlock dindBlock) i :=
      fun v' => if_neg hslot
    simp only [Bool.not_true, Bool.false_eq_true, if_false]
    split
    case isFalse hword => exact hdone h2 hpath (.word j (hat v2) hword)
    case isTrue hword =>
    rcases allocZeroed_spec (hpad _ _ h2) group with ⟨err, v', heq, herr, hq⟩ |
      ⟨b, v', heq, hb, halloc⟩
    · simp only [heq, if_pos herr]
      exact herror _ _ _ (hquiet _ _ _ h2 hq) herr
    have hlt : b < 2 ^ 32 := (halloc.block hb).1.2.trans fs.blocksCount_lt
    have h3 := htable h2 hchild ((hat v2).trans hword) hb halloc (.word (q := []) i rfl hslot)
    simp only [heq]
    exact hdone h3 hpath (.word j ((hat _).trans (word_setWord_self hlt _ i)) hb)
  · exact herror v c _ h (show vfsEinval ≠ vfsOk by decide)

end

/-- What `ext2_set_block` leaves. -/
structure BlockSet (fs : Layout) (C : Nat → Inode → Prop) (ino phys : Nat) (v : Volume) (c : Inode)
    (err : Int) (v' : Volume) (c' : Inode) (owner' : Nat → Option Place) : Prop where
  owned : Owned fs v' (addCopy C ino c') owner'
  same : SameInodes v v'
  kind : SameKind c c'
  failed : err ≠ vfsOk → Fresh fs v' owner' phys
  done : err = vfsOk → ∃ p, owner' phys = some p ∧ p.path.length = depth p.slot

/-- The copy is replaced by one with its pointers. -/
theorem Owned.recopy (h : Owned fs v (addCopy C ino c) owner) (hblock : c'.iBlock = c.iBlock)
    (hhas : c'.HasBlocks → c.HasBlocks) : Owned fs v (addCopy C ino c') owner := by
  refine (h.copy (.inr ⟨rfl, rfl⟩) hblock hhas).subset fun ino' c'' hc => ?_
  exact hc.imp .inl id

/-- A new block gets its place. -/
theorem Owned.put (h : Owned fs v (addCopy C ino c) owner) (hhas : c.HasBlocks)
    (hb : Fresh fs v owner b) (hq : IsPlace fs t q)
    (hemp : q.length < depth t → ∀ k, v.link b k = none) (hput : Put v c b t q v' c') :
    Owned fs v' (addCopy C ino c') (update owner b (some ⟨ino, t, q⟩)) := by
  cases hput with
  | slot =>
    refine (h.setSlot (.inr ⟨rfl, rfl⟩) hhas hb (fun k hlt => hemp hlt k) rfl).subset
      fun _ _ hc => hc.imp .inl id
  | word k hx hne =>
    subst hx
    have htable := hq.parent
    exact h.setWord (h.blockAt_owner (.inr ⟨rfl, rfl⟩) hhas htable.toIsPlace hne)
      (if_pos ⟨htable.short, hq.ptrs k (mem_append_right _ mem_cons_self)⟩)
      hb fun k hlt => hemp hlt k

theorem Put.sameKind (h : Put v c b t q v' c') : SameInodes v v' ∧ SameKind c c' := by
  cases h <;> exact ⟨⟨rfl, rfl⟩, ⟨rfl, rfl⟩⟩

theorem Put.fresh (h : Put v c b t q v' c') (hphys : Fresh fs v owner phys) :
    Fresh fs v' owner phys := by
  cases h with
  | slot => exact hphys
  | word => exact hphys.writeBlock _ _

theorem setBlock_spec (h : Owned fs v C owner) (hc : C ino c) (hfile : c.IsFile)
    (hphys : Fresh fs v owner phys) {l group} (hr : setBlock fs v c l phys group = (err, v', c')) :
    ∃ owner', BlockSet fs C ino phys v c err v' c' owner' := by
  suffices hset : ∃ owner', BlockSet fs C ino phys v c (setBlock fs v c l phys group).1
      (setBlock fs v c l phys group).2.1 (setBlock fs v c l phys group).2.2 owner' by
    rwa [hr] at hset
  refine setBlock_rule (P := fun v' c' => SameInodes v v' ∧ SameKind c c' ∧
      ∃ owner', Owned fs v' (addCopy C ino c') owner' ∧ Fresh fs v' owner' phys)
    (Q := fun err v' c' => ∃ owner', BlockSet fs C ino phys v c err v' c' owner')
    (fun v c ⟨_, _, _, hown, _⟩ => hown.padded) (fun v1 c1 v2 h hquiet => ?_) ?_
    ⟨⟨rfl, rfl⟩, ⟨rfl, rfl⟩, owner, h.copy hc rfl id, hphys⟩ l group (fun v1 c1 err h herr => ?_) ?_
  · obtain ⟨hsame, hkind, owner', hown, hfresh⟩ := h
    exact ⟨hsame.trans ⟨hquiet.inodes, hquiet.inodeBitmap⟩, hkind, owner', hown.quiet hquiet,
      hfresh.quiet hquiet⟩
  · rintro v1 c1 b v2 t q v3 c3 ⟨hsame, hkind, owner', hown, hfresh⟩ hq - hb halloc hput
    have hnew := hown.fresh halloc hb
    have hne : phys ≠ b := by
      rintro rfl
      exact Bool.false_ne_true ((halloc.block hb).2.1.symm.trans hfresh.used)
    have hhas : c1.HasBlocks := (hfile.congr hkind.mode).hasBlocks
    have hzero := (hown.grows halloc.grows).writeFresh hnew fun _ => 0
    obtain ⟨hsame', hkind'⟩ := hput.sameKind
    refine ⟨(hsame.trans (.of_grows halloc.grows)).trans
      ((SameInodes.writeBlock _ _ _).trans hsame'),
      hkind.trans (hkind'.trans ⟨rfl, rfl⟩), _, (hzero.put hhas (hnew.writeBlock _ _) hq.toIsPlace
      (fun _ k => link_eq_none_of_zero (update_self _ _ _)) hput).recopy rfl
        fun _ => ((hfile.congr hkind.mode).congr hkind'.mode).hasBlocks, ?_⟩
    exact (hput.fresh ((hfresh.quiet halloc.grows.quiet).writeBlock _ _)).setOwner hne _
  · obtain ⟨hsame, hkind, owner', hown, hfresh⟩ := h
    exact ⟨owner', hown, hsame, hkind, fun _ => hfresh, fun hok => absurd hok herr⟩
  rintro v1 c1 t path v2 c2 ⟨hsame, hkind, owner', hown, hfresh⟩ hpath hput
  have hlen := (slotPath_spec hpath).2.1
  obtain ⟨hsame', hkind'⟩ := hput.sameKind
  exact ⟨_, hown.put (hfile.congr hkind.mode).hasBlocks hfresh (isPlace_of_slotPath hpath)
    (fun hlt => absurd hlen (ne_of_lt hlt)) hput, hsame.trans hsame', hkind.trans hkind',
    (absurd rfl), fun _ => ⟨_, update_self _ _ _, hlen⟩⟩

/-! ### Files -/

/-- From one copy of an inode to the next, blocks keep their owners and new ones get theirs. -/
structure Carried (fs : Layout) (C : Nat → Inode → Prop) (ino : Nat) (v : Volume) (c : Inode)
    (v' : Volume) (c' : Inode) : Prop where
  owned : ∃ owner, Owned fs v' (addCopy C ino c') owner
  same : SameInodes v v'
  mode : c'.iMode = c.iMode

namespace Carried

theorem trans (h : SameInodes v v') (hmode : c'.iMode = c.iMode)
    (h' : Carried fs C ino v' c' v'' c'') : Carried fs C ino v c v'' c'' where
  owned := h'.owned
  same := h.trans h'.same
  mode := h'.mode.trans hmode

end Carried

/-- After a round of `ext2_set_block`, the older copy is forgotten. -/
theorem BlockSet.carried {owner'}
    (h : BlockSet fs (addCopy C ino c) ino phys v c err v' c' owner') :
    Owned fs v' (addCopy C ino c') owner' :=
  h.owned.subset fun _ _ hc => hc.imp .inl id

theorem writeLoop_spec (offset fuel pos remaining : Nat) (src : Buffer)
    (h : ∃ owner, Owned fs v (addCopy C node.ino node.inode) owner) (hfile : node.inode.IsFile) :
    Carried fs C node.ino v node.inode (writeLoop fs offset fuel pos remaining src v node).2.1
        (writeLoop fs offset fuel pos remaining src v node).2.2.inode ∧
      (writeLoop fs offset fuel pos remaining src v node).2.2.ino = node.ino := by
  induction fuel generalizing pos remaining src v node with
  | zero => exact ⟨⟨h, ⟨rfl, rfl⟩, rfl⟩, rfl⟩
  | succ fuel ih =>
    obtain ⟨owner, h⟩ := h
    rw [writeLoop]
    split
    · exact ⟨⟨⟨owner, h⟩, ⟨rfl, rfl⟩, rfl⟩, rfl⟩
    simp only
    generalize pos / fs.blockSize % 2 ^ 32 = l
    rcases hr : getBlock fs v node.inode l with ⟨phys, v1⟩
    obtain ⟨hdisk, hfound⟩ := getBlock_spec hr
    have hown := h.grows hdisk.grows
    split
    case isFalse hne =>
      obtain ⟨hnext, hino⟩ := ih _ _ _ ⟨owner, h.writeData hdisk (.inr ⟨rfl, rfl⟩) hfile.hasBlocks
        (hfound hne) hne _⟩ hfile
      exact ⟨.trans ((SameInodes.of_sameDisk hdisk).trans (.writeBlock _ _ _)) rfl hnext, hino⟩
    case isTrue =>
    rcases hr' : allocBlock fs v1 (fs.inodeGroup node.ino) with ⟨phys', v2⟩
    have halloc := allocBlock_spec hown.padded hr'
    have hsame := (SameInodes.of_sameDisk hdisk).trans (.of_grows halloc.grows)
    have howned' := hown.grows halloc.grows
    split
    · split
      · exact ⟨⟨⟨owner, howned'.recopy rfl fun _ => hfile.hasBlocks⟩, hsame, rfl⟩, rfl⟩
      · exact ⟨⟨⟨owner, howned'⟩, hsame, rfl⟩, rfl⟩
    case isFalse hne =>
    rcases hr'' : setBlock fs v2 node.inode l phys' (fs.inodeGroup node.ino) with ⟨err, v3, c3⟩
    obtain ⟨owner', hset⟩ :=
      setBlock_spec howned' (.inr ⟨rfl, rfl⟩) hfile (hown.fresh halloc hne) hr''
    have hsame' := hsame.trans hset.same
    split
    case isTrue herr =>
      have hfree := hset.carried.freeBlock (hset.failed herr)
      exact ⟨⟨⟨owner', hfree⟩, hsame'.trans (.of_frees (freeBlock_frees fs v3 phys')),
        hset.kind.mode⟩, rfl⟩
    case isFalse herr =>
    obtain ⟨p, hp, hdata⟩ := hset.done (of_not_not herr)
    have hwr := hset.carried.writeBlock
      (copy (fun _ => 0) (pos % fs.blockSize)
        (min (fs.blockSize - pos % fs.blockSize) remaining) src)
      fun q hq => by rw [hp] at hq; cases hq; exact hdata
    let node' : Node := { node with inode := c3.addBlock fs }
    have hmode : node'.inode.iMode = node.inode.iMode := hset.kind.mode
    have hcopy : Owned fs _ (addCopy C node'.ino node'.inode) owner' :=
      hwr.recopy rfl fun _ => (hfile.congr hset.kind.mode).hasBlocks
    obtain ⟨hnext, hino⟩ := ih _ _ _ ⟨owner', hcopy⟩ (hfile.congr hmode)
    exact ⟨.trans (hsame'.trans (.writeBlock _ _ _)) hmode hnext, hino⟩

theorem fileWrite_spec (src : Buffer) (size offset : Nat)
    (h : ∃ owner, Owned fs v (addCopy C node.ino node.inode) owner) (hfile : node.inode.IsFile) :
    Carried fs C node.ino v node.inode (fileWrite fs v node src size offset).2.1
        (fileWrite fs v node src size offset).2.2.inode ∧
      (fileWrite fs v node src size offset).2.2.ino = node.ino := by
  unfold fileWrite
  split
  · exact ⟨⟨h, ⟨rfl, rfl⟩, rfl⟩, rfl⟩
  rcases hk : v.kmalloc with ⟨ok, v1⟩
  have hgrows := (sameDisk_kmalloc hk).grows
  obtain ⟨owner, h⟩ := h
  have hsame := SameInodes.of_grows hgrows
  cases ok
  case false => exact ⟨⟨⟨owner, h.grows hgrows⟩, hsame, rfl⟩, rfl⟩
  case true =>
  have hloop := writeLoop_spec offset size offset size src ⟨owner, h.grows hgrows⟩ hfile
  simp only [Bool.not_true, Bool.false_eq_true, if_false]
  rcases hr : writeLoop fs offset size offset size src v1 node with ⟨result, v2, node2⟩
  rw [hr] at hloop
  obtain ⟨⟨⟨owner', hown⟩, hsame', hmode⟩, hino⟩ := hloop
  have hfile' : node2.inode.IsFile := hfile.congr hmode
  cases result
  case some => exact ⟨⟨⟨owner', hown⟩, hsame.trans hsame', hmode⟩, hino⟩
  case none =>
  simp only
  split
  · exact ⟨⟨⟨owner', hown.recopy rfl fun _ => hfile'.hasBlocks⟩, hsame.trans hsame', hmode⟩, hino⟩
  · exact ⟨⟨⟨owner', hown⟩, hsame.trans hsame', hmode⟩, hino⟩

/-- Only blocks of the inode are freed. -/
theorem freeBlocksFrom_frees (h : Owned fs v C owner) (hc : C ino c)
    (hhas : c.HasBlocks ∨ c.iSize = 0) (first : Nat) :
    Frees fs (fun b => ∃ p, owner b = some p ∧ p.ino = ino) v (freeBlocksFrom fs v c first).1 := by
  rcases hhas with hhas | hsize
  case inr =>
    have hnone : c.numBlocks fs = 0 := by
      unfold Inode.numBlocks
      rw [hsize, zero_add]
      refine Nat.div_eq_of_lt (lt_of_le_of_lt (Nat.mod_le _ _) ?_)
      exact Nat.sub_lt fs.blockSize_pos one_pos
    unfold freeBlocksFrom
    rw [forRange_of_le (by rw [hnone]; exact zero_le)]
    exact (SameDisk.refl v).frees
  case inl =>
  refine forRange_preserves
    (P := fun (q : Volume × Inode) => Frees fs (fun b => ∃ p, owner b = some p ∧ p.ino = ino) v q.1)
    (SameDisk.refl v).frees fun l q hq => ?_
  rcases hr : getBlock fs q.1 c l with ⟨phys, v1⟩
  obtain ⟨hdisk, hfound⟩ := getBlock_spec hr
  rw [mapBlock_congr hq.data] at hfound
  simp only
  split
  case isFalse => exact hq.trans hdisk.frees
  case isTrue hne =>
  obtain ⟨t, path, -, hphys⟩ := h.mapBlock_owner hc hhas ((hfound hne).symm ▸ hne)
  rw [hfound hne] at hphys
  refine (hq.trans hdisk.frees).trans ((freeBlock_frees fs v1 phys).mono fun b hb => ?_)
  exact ⟨_, hb ▸ hphys, rfl⟩

/-- Nothing is freed where the file has no blocks. -/
theorem freeBlocksFrom_unmapped {first}
    (hzero : ∀ l < c.numBlocks fs, first ≤ l → mapBlock fs v c l = 0) :
    v.SameDisk (freeBlocksFrom fs v c first).1 ∧ (freeBlocksFrom fs v c first).2 = c := by
  unfold freeBlocksFrom
  rcases Nat.le_total (c.numBlocks fs) first with hle | hle
  · rw [forRange_of_le hle]
    exact ⟨.refl v, rfl⟩
  refine forRange_inv (fun _ (q : Volume × Inode) => v.SameDisk q.1 ∧ q.2 = c) hle ⟨.refl v, rfl⟩ ?_
  rintro l q hlo hhi ⟨hdisk, hinode⟩
  rcases hr : getBlock fs q.1 c l with ⟨phys, v1⟩
  obtain ⟨hdisk', hfound⟩ := getBlock_spec hr
  rw [mapBlock_congr hdisk.grows.data, hzero l hhi hlo] at hfound
  have hphys : phys = 0 := by_contra fun hne => hne (hfound hne).symm
  simp only [hphys, ne_eq, not_true, if_false]
  exact ⟨hdisk.trans hdisk', hinode⟩

/-! ### Directories -/

/-- What a scan finds is in a block of the directory. -/
theorem scanBlocks_spec {α : Type} {f : Buffer → Option α} {ls found}
    (hr : scanBlocks fs c f v ls = (found, v')) :
    v.SameDisk v' ∧ ∀ b a, found = some (b, a) →
      ∃ l ∈ ls, mapBlock fs v c l = b ∧ b ≠ 0 ∧ f (v.data b) = some a := by
  induction ls generalizing v with
  | nil =>
    cases hr
    exact ⟨.refl _, nofun⟩
  | cons l ls ih =>
    rw [scanBlocks] at hr
    rcases hget : getBlock fs v c l with ⟨phys, v1⟩
    obtain ⟨hdisk, hmap⟩ := getBlock_spec hget
    have hdata := hdisk.grows.data
    simp only [hget] at hr
    have hrest : scanBlocks fs c f v1 ls = (found, v') → v.SameDisk v' ∧ ∀ b a,
        found = some (b, a) →
          ∃ l' ∈ l :: ls, mapBlock fs v c l' = b ∧ b ≠ 0 ∧ f (v.data b) = some a := by
      intro hrest
      obtain ⟨hdisk', hfound⟩ := ih hrest
      refine ⟨hdisk.trans hdisk', fun b a hsome => ?_⟩
      obtain ⟨l', hl', hmap', hne, hf⟩ := hfound b a hsome
      rw [mapBlock_congr hdata] at hmap'
      rw [hdata] at hf
      exact ⟨l', mem_cons_of_mem l hl', hmap', hne, hf⟩
    split at hr
    · exact hrest hr
    case isFalse hne =>
    split at hr
    case h_2 => exact hrest hr
    case h_1 a ha =>
    cases hr
    refine ⟨hdisk, fun b a' hsome => ?_⟩
    cases hsome
    rw [hdata] at ha
    exact ⟨l, mem_cons_self, hmap hne, hne, ha⟩

theorem lookupName_sameDisk {found} (hr : lookupName fs v c name = (found, v')) :
    v.SameDisk v' := by
  unfold lookupName at hr
  rcases hk : v.kmalloc with ⟨_ | _, v1⟩ <;> have hsame := sameDisk_kmalloc hk <;> rw [hk] at hr
  · cases hr
    exact hsame
  simp only [Bool.not_true, Bool.false_eq_true, if_false] at hr
  split at hr
  all_goals
    next hscan =>
    cases hr
    exact hsame.trans (scanBlocks_spec hscan).1

theorem createNode_spec (hr : createNode v ino c = (found, v')) :
    v.SameDisk v' ∧ ∀ node, found = some node → node.ino = ino ∧ node.inode = c := by
  unfold createNode at hr
  rcases hk : v.kmalloc with ⟨_ | _, v1⟩ <;> have hsame := sameDisk_kmalloc hk <;> rw [hk] at hr
  · cases hr
    exact ⟨hsame, nofun⟩
  rcases hk' : v1.kmalloc with ⟨ok, v2⟩
  have hsame' := hsame.trans (sameDisk_kmalloc hk')
  simp only [Bool.not_true, Bool.false_eq_true, if_false, hk'] at hr
  cases ok
  case false =>
    cases hr
    exact ⟨hsame', nofun⟩
  case true =>
  cases hr
  refine ⟨hsame', fun node hnode => ?_⟩
  cases hnode
  exact ⟨rfl, rfl⟩

theorem readInode_spec {found} (hr : readInode fs v ino = (found, v')) :
    v.SameDisk v' ∧ ∀ c, found = some c → c = v.inodes ino := by
  unfold readInode at hr
  split at hr
  · cases hr
    exact ⟨.refl v, nofun⟩
  rcases hk : v.kmalloc with ⟨_ | _, v1⟩ <;> have hsame := sameDisk_kmalloc hk <;> rw [hk] at hr
  · cases hr
    exact ⟨hsame, nofun⟩
  cases hr
  refine ⟨hsame, fun c hc => ?_⟩
  cases hc
  rw [(SameInodes.of_sameDisk hsame).inodes]

/-- A lookup finds an inode as it is on the device. -/
theorem dirFinddir_spec (hr : dirFinddir fs v parent name = (found, v')) :
    v.SameDisk v' ∧ ∀ node, found = some node → node.inode = v.inodes node.ino := by
  unfold dirFinddir at hr
  split at hr
  case h_1 v1 hlookup =>
    cases hr
    exact ⟨lookupName_sameDisk hlookup, nofun⟩
  case h_2 ino v1 hlookup =>
  have hdisk := lookupName_sameDisk hlookup
  split at hr
  case h_1 v2 hread =>
    cases hr
    exact ⟨hdisk.trans (readInode_spec hread).1, nofun⟩
  case h_2 inode v2 hread =>
  obtain ⟨hdisk1, hinode⟩ := readInode_spec hread
  obtain ⟨hdisk2, hnode⟩ := createNode_spec hr
  refine ⟨(hdisk.trans hdisk1).trans hdisk2, fun node hsome => ?_⟩
  obtain ⟨rfl, heq⟩ := hnode node hsome
  rw [heq, hinode inode rfl, (SameInodes.of_sameDisk hdisk).inodes]

/-- The directory gets a block. -/
theorem appendDirBlock_spec (num : Nat) (name : List UInt8) (code : Nat)
    (h : Owned fs v (addCopy C parent.ino parent.inode) owner) (hfile : parent.inode.IsFile) :
    Carried fs C parent.ino v parent.inode (appendDirBlock fs v parent num name code).2.1
        (appendDirBlock fs v parent num name code).2.2.inode ∧
      (appendDirBlock fs v parent num name code).2.2.ino = parent.ino := by
  unfold appendDirBlock
  simp only
  rcases hr : allocBlock fs v (fs.inodeGroup parent.ino) with ⟨b, v1⟩
  have halloc := allocBlock_spec h.padded hr
  have hsame := SameInodes.of_grows halloc.grows
  have hown := h.grows halloc.grows
  split
  · exact ⟨⟨⟨owner, hown⟩, hsame, rfl⟩, rfl⟩
  case isFalse hne =>
  have hfresh := h.fresh halloc hne
  rcases hr' : setBlock fs (v1.writeBlock b (freshDirBlock fs num name code)) parent.inode
    (parent.inode.iSize / fs.blockSize) b (fs.inodeGroup parent.ino) with ⟨err, v2, c2⟩
  obtain ⟨owner', hset⟩ := setBlock_spec (hown.writeFresh hfresh _) (.inr ⟨rfl, rfl⟩) hfile
    (hfresh.writeBlock _ _) hr'
  have hsame' := (hsame.trans (.writeBlock _ _ _)).trans hset.same
  split
  case isTrue herr =>
    have hfree := hset.carried.freeBlock (hset.failed herr)
    exact ⟨⟨⟨owner', hfree⟩, hsame'.trans (.of_frees (freeBlock_frees fs v2 b)),
      hset.kind.mode⟩, rfl⟩
  · have hhas : c2.HasBlocks := (hfile.congr hset.kind.mode).hasBlocks
    exact ⟨⟨⟨owner', hset.carried.recopy rfl fun _ => hhas⟩, hsame', hset.kind.mode⟩, rfl⟩

/-- A name goes into a block of the directory, or into a new one. -/
theorem addDirEntry_cases (fs : Layout) (v : Volume) (parent : Node) (num : Nat) (name : List UInt8)
    (code : Nat) : ∃ v', v.SameDisk v' ∧
      (addDirEntry fs v parent num name code = (vfsEnomem, v', parent) ∨
        (∃ l ∈ dirBlocks fs parent.inode, ∃ b buf, mapBlock fs v parent.inode l = b ∧ b ≠ 0 ∧
          placeEntry fs.blockSize (v.data b) num name code fs.blockSize 0 = some buf ∧
          addDirEntry fs v parent num name code = (vfsOk, v'.writeBlock b buf, parent)) ∨
        addDirEntry fs v parent num name code = appendDirBlock fs v' parent num name code) := by
  unfold addDirEntry
  rcases hk : v.kmalloc with ⟨_ | _, v1⟩ <;> have hsame := sameDisk_kmalloc hk
  · exact ⟨v1, hsame, .inl rfl⟩
  simp only [Bool.not_true, Bool.false_eq_true, if_false]
  split
  case h_1 b buf v2 hr =>
    obtain ⟨hdisk, hfound⟩ := scanBlocks_spec hr
    obtain ⟨l, hl, hmap, hne, hplace⟩ := hfound b buf rfl
    rw [mapBlock_congr hsame.grows.data] at hmap
    rw [hsame.grows.data] at hplace
    exact ⟨v2, hsame.trans hdisk, .inr (.inl ⟨l, hl, b, buf, hmap, hne, hplace, rfl⟩)⟩
  case h_2 v2 hr => exact ⟨v2, hsame.trans (scanBlocks_spec hr).1, .inr (.inr rfl)⟩

theorem addDirEntry_spec (num : Nat) (name : List UInt8) (code : Nat)
    (h : ∃ owner, Owned fs v (addCopy C parent.ino parent.inode) owner)
    (hfile : parent.inode.IsFile) :
    Carried fs C parent.ino v parent.inode (addDirEntry fs v parent num name code).2.1
        (addDirEntry fs v parent num name code).2.2.inode ∧
      (addDirEntry fs v parent num name code).2.2.ino = parent.ino := by
  obtain ⟨owner, h⟩ := h
  obtain ⟨v', hdisk, heq | ⟨l, -, b, buf, hmap, hne, -, heq⟩ | heq⟩ :=
    addDirEntry_cases fs v parent num name code
  · rw [heq]
    exact ⟨⟨⟨owner, h.grows hdisk.grows⟩, .of_sameDisk hdisk, rfl⟩, rfl⟩
  · rw [heq]
    exact ⟨⟨⟨owner, h.writeData hdisk (.inr ⟨rfl, rfl⟩) hfile.hasBlocks hmap hne buf⟩,
      (SameInodes.of_sameDisk hdisk).trans (.writeBlock _ _ _), rfl⟩, rfl⟩
  · obtain ⟨hcarried, hino⟩ := appendDirBlock_spec num name code (h.grows hdisk.grows) hfile
    rw [heq]
    exact ⟨.trans (.of_sameDisk hdisk) rfl hcarried, hino⟩

/-- A name is removed inside a block of the directory. -/
theorem removeDirEntry_cases (fs : Layout) (v : Volume) (parent : Node) (name : List UInt8) :
    ∃ v', v.SameDisk v' ∧
      ((∃ err, removeDirEntry fs v parent name = (err, v') ∧ err ≠ vfsOk) ∨
        ∃ l ∈ dirBlocks fs parent.inode, ∃ b r, mapBlock fs v parent.inode l = b ∧ b ≠ 0 ∧
          findEntry fs.blockSize (v.data b) name fs.blockSize 0 none = some r ∧
          removeDirEntry fs v parent name =
            (vfsOk, v'.writeBlock b (dropEntry (v.data b) r.1 r.2))) := by
  unfold removeDirEntry
  rcases hk : v.kmalloc with ⟨_ | _, v1⟩ <;> have hsame := sameDisk_kmalloc hk
  · exact ⟨v1, hsame, .inl ⟨_, rfl, vfsEnomem_ne_ok⟩⟩
  simp only [Bool.not_true, Bool.false_eq_true, if_false]
  split
  case h_1 b buf v2 hr =>
    obtain ⟨hdisk, hfound⟩ := scanBlocks_spec hr
    obtain ⟨l, hl, hmap, hne, hdrop⟩ := hfound b buf rfl
    obtain ⟨r, hfind, rfl⟩ := Option.map_eq_some_iff.mp hdrop
    rw [mapBlock_congr hsame.grows.data] at hmap
    rw [hsame.grows.data] at hfind ⊢
    exact ⟨v2, hsame.trans hdisk, .inr ⟨l, hl, b, r, hmap, hne, hfind, rfl⟩⟩
  case h_2 v2 hr => exact ⟨v2, hsame.trans (scanBlocks_spec hr).1, .inl ⟨_, rfl, by decide⟩⟩

theorem removeDirEntry_spec (h : Owned fs v C owner) (hc : C parent.ino parent.inode)
    (hhas : parent.inode.HasBlocks) (hr : removeDirEntry fs v parent name = (err, v')) :
    Owned fs v' C owner ∧ SameInodes v v' ∧ v'.mem <:+ v.mem := by
  obtain ⟨v1, hdisk, ⟨err', heq, -⟩ | ⟨l, -, b, r, hmap, hne, -, heq⟩⟩ :=
    removeDirEntry_cases fs v parent name <;> cases hr.symm.trans heq
  · exact ⟨h.grows hdisk.grows, .of_sameDisk hdisk, hdisk.mem⟩
  · exact ⟨h.writeData hdisk hc hhas hmap hne _,
      (SameInodes.of_sameDisk hdisk).trans (.writeBlock _ _ _), hdisk.mem⟩

end Kurios.Ext2
