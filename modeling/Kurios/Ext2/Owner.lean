import Kurios.Base.Places
import Kurios.Ext2.Blocks

/-!
Who owns the blocks of an ext2 volume.

A block of a file stands at a place: in a slot of the inode, or below it at the end of a
path of pointers. `Owned` says that every block that the pointers of given copies of inodes
lead to stands at one place, is marked in the block bitmap and holds no metadata; `owner`
says at which place. A new block has no owner (`Fresh`) until `ext2_set_block` puts it at
its place.
-/

namespace Kurios.Ext2

open Base Volume Function List

variable {c' : Inode} {l t k : Nat} {path : List Nat}

/-! ### Places -/

/-- A slot of an inode, and a path of pointers from there. -/
structure Place where
  ino : Nat
  slot : Nat
  path : List Nat
deriving DecidableEq, Repr

/-- `EXT2_N_BLOCKS`. -/
def nBlocks : Nat := 15

/-- How many levels of pointer blocks there are below a slot. -/
def depth (slot : Nat) : Nat := slot + 1 - ndirBlocks

/-- The place that the `k`th pointer of a block leads to, unless the block holds data. -/
def Place.child (fs : Layout) (p : Place) (k : Nat) : Option Place :=
  if p.path.length < depth p.slot ∧ k < fs.ptrsPerBlock then
    some { p with path := p.path ++ [k] }
  else none

/-- The `k`th pointer of a block. -/
def Volume.link (v : Volume) (b k : Nat) : Option Nat :=
  if v.word b k = 0 then none else some (v.word b k)

/-- The slots hold block numbers: not a device number, nor the text of a short link. -/
def Inode.HasBlocks (c : Inode) : Prop :=
  match c.iMode with
  | .regular | .directory => True
  | .symlink => ¬ (c.iBlocks = 0 ∧ c.iSize ≤ 60)
  | _ => False

instance (c : Inode) : Decidable c.HasBlocks := by
  unfold Inode.HasBlocks
  split <;> infer_instance

/-- The pointers in copies of inodes. -/
def rootOf (C : Nat → Inode → Prop) (p : Place) (b : Nat) : Prop :=
  p.path = [] ∧ p.slot < nBlocks ∧ b ≠ 0 ∧ ∃ c, C p.ino c ∧ c.HasBlocks ∧ c.iBlock p.slot = b

/-- A copy more. -/
def addCopy (C : Nat → Inode → Prop) (ino : Nat) (c : Inode) : Nat → Inode → Prop :=
  fun ino' c' => C ino' c' ∨ (ino' = ino ∧ c' = c)

/-- Every block in the copies `C` of inodes has one place. -/
structure Owned (fs : Layout) (v : Volume) (C : Nat → Inode → Prop)
    (owner : Nat → Option Place) : Prop where
  labels : Labels (rootOf C) v.link (fun p _ => p.child fs) owner
  valid : ∀ b p, owner b = some p → fs.InRange b ∧ v.used fs b = true ∧ fs.isMeta b = false
  metas : ∀ b, fs.InRange b → fs.isMeta b = true → v.used fs b = true
  padded : v.Padded fs

/-- A block that is in use and has no place yet. -/
structure Fresh (fs : Layout) (v : Volume) (owner : Nat → Option Place) (b : Nat) : Prop where
  owner : owner b = none
  ne_zero : b ≠ 0
  inRange : fs.InRange b
  used : v.used fs b = true
  data : fs.isMeta b = false

variable {fs : Layout} {v v' : Volume} {C C' : Nat → Inode → Prop} {owner : Nat → Option Place}
  {ino : Nat} {c : Inode} {b : Nat}

theorem Place.short_of_child {p : Place} (h : (p.child fs k).isSome) :
    p.path.length < depth p.slot := by
  unfold child at h
  split at h
  case isTrue hlt => exact hlt.1
  · cases h

theorem link_congr (h : v'.data = v.data) : v'.link = v.link := by
  funext b k
  have hword : v'.word b k = v.word b k := by rw [word, word, h]
  rw [Volume.link, Volume.link, hword]

theorem link_eq_none_of_zero (h : v.data b = fun _ => 0) : v.link b k = none := by
  rw [Volume.link, word, h, load_zero, if_pos rfl]

theorem link_writeBlock_of_ne {b'} (hne : b' ≠ b) (buf : Buffer) (k : Nat) :
    (v.writeBlock b buf).link b' k = v.link b' k := by
  have hword : (v.writeBlock b buf).word b' k = v.word b' k := by
    simp [word, writeBlock, update_of_ne hne]
  rw [Volume.link, Volume.link, hword]

/-- A block number that is stored is read back, and the others in the block stay. -/
theorem word_setWord_self (hb : b < 2 ^ 32) (t k : Nat) : (v.setWord t k b).word t k = b := by
  rw [word, setWord, writeBlock]
  simp only [update_self]
  exact load_store_of_lt hb

theorem word_setWord_of_ne {t' k' x} (hne : t' ≠ t ∨ k' ≠ k) :
    (v.setWord t k x).word t' k' = v.word t' k' := by
  by_cases ht : t' = t
  · subst ht
    rw [word, setWord, writeBlock]
    simp only [update_self]
    exact load_store_of_disjoint (by omega)
  · simp [word, setWord, writeBlock, update_of_ne ht]

namespace Owned

section

variable (h : Owned fs v C owner)
include h

theorem mono (hroot : ∀ p b, rootOf C' p b → rootOf C p b) : Owned fs v C' owner where
  labels := h.labels.mono hroot
  __ := h

theorem subset (hsub : ∀ ino c, C' ino c → C ino c) : Owned fs v C' owner :=
  h.mono fun _ _ ⟨hpath, hslot, hne, c, hc, hrest⟩ => ⟨hpath, hslot, hne, c, hsub _ _ hc, hrest⟩

/-- A copy with the pointers of one that is there. -/
theorem copy (hc : C ino c) (hblock : c'.iBlock = c.iBlock) (hhas : c'.HasBlocks → c.HasBlocks) :
    Owned fs v (addCopy C ino c') owner := by
  refine h.mono fun p b hroot => ?_
  obtain ⟨hpath, hslot, hne, c'', hc'' | ⟨hino, rfl⟩, hhas', hptr⟩ := hroot
  · exact ⟨hpath, hslot, hne, c'', hc'', hhas', hptr⟩
  · exact ⟨hpath, hslot, hne, c, hino ▸ hc, hhas hhas', hblock ▸ hptr⟩

theorem quiet (hq : Quiet fs v v') : Owned fs v' C owner where
  labels := by
    rw [link_congr hq.data]
    exact h.labels
  valid b p hp := by
    obtain ⟨hrng, hused, hmeta⟩ := h.valid b p hp
    exact ⟨hrng, hq.used b hrng hused, hmeta⟩
  metas b hrng hmeta := hq.used b hrng (h.metas b hrng hmeta)
  padded := hq.padded h.padded

theorem grows (hg : v.Grows v') : Owned fs v' C owner := h.quiet hg.quiet

/-- Blocks without an owner are freed. -/
theorem frees {S : Nat → Prop} (hfrees : Frees fs S v v')
    (hS : ∀ b, S b → owner b = none ∧ fs.isMeta b = false) : Owned fs v' C owner where
  labels := by
    rw [link_congr hfrees.data]
    exact h.labels
  valid b p hp := by
    obtain ⟨hrng, hused, hmeta⟩ := h.valid b p hp
    refine ⟨hrng, hfrees.used hrng.1 (fun hb => ?_) hused, hmeta⟩
    rw [(hS b hb).1] at hp
    cases hp
  metas b hrng hmeta := by
    refine hfrees.used hrng.1 (fun hb => ?_) (h.metas b hrng hmeta)
    rw [(hS b hb).2] at hmeta
    cases hmeta
  padded := h.padded.frees hfrees

theorem freeBlock (hb : Fresh fs v owner b) : Owned fs (freeBlock fs v b) C owner := by
  refine h.frees (freeBlock_frees fs v b) fun b' heq => ?_
  subst heq
  exact ⟨hb.owner, hb.data⟩

/-- A block that an allocation returns has no owner. -/
theorem fresh (halloc : Allocated fs v b v') (hb : b ≠ 0) : Fresh fs v' owner b := by
  obtain ⟨hrng, hfree, hused⟩ := halloc.block hb
  have howner : owner b = none := by
    cases heq : owner b with
    | none => rfl
    | some p =>
      rw [(h.valid b p heq).2.1] at hfree
      cases hfree
  have hdata : fs.isMeta b = false := by
    rw [← Bool.not_eq_true]
    intro hmeta
    rw [h.metas b hrng hmeta] at hfree
    cases hfree
  exact ⟨howner, hb, hrng, hused, hdata⟩

/-- The contents of blocks without pointers do not matter. -/
theorem writeBlock (buf : Buffer) (hb : ∀ p, owner b = some p → p.path.length = depth p.slot) :
    Owned fs (v.writeBlock b buf) C owner where
  labels := by
    refine ⟨h.labels.root, fun p q b' c k howner hq hc => h.labels.link p q b' c k howner hq ?_⟩
    rwa [link_writeBlock_of_ne] at hc
    rintro rfl
    exact ne_of_lt (Place.short_of_child (by rw [hq]; rfl)) (hb p howner)
  __ := h

theorem writeFresh (hb : Fresh fs v owner b) (buf : Buffer) :
    Owned fs (v.writeBlock b buf) C owner := by
  refine h.writeBlock buf fun p hp => ?_
  rw [hb.owner] at hp
  cases hp

/-- The owners are valid when a new block gets one. -/
theorem valid_update (hb : Fresh fs v owner b) (p : Place) (b' : Nat) (p' : Place)
    (hp : update owner b (some p) b' = some p') :
    fs.InRange b' ∧ v.used fs b' = true ∧ fs.isMeta b' = false := by
  by_cases heq : b' = b
  · subst heq
    exact ⟨hb.inRange, hb.used, hb.data⟩
  · rw [update_of_ne heq] at hp
    exact h.valid b' p' hp

/-- A new block in a slot of an inode. -/
theorem setSlot (hc : C ino c) (hhas : c.HasBlocks) (hb : Fresh fs v owner b)
    (hemp : ∀ k, 0 < depth t → v.link b k = none) (hblock : c'.iBlock = update c.iBlock t b) :
    Owned fs v (addCopy C ino c') (update owner b (some ⟨ino, t, []⟩)) where
  labels := by
    have hadd := h.labels.addRoot (p := ⟨ino, t, []⟩) hb.owner fun k hchild => by
      have hlt := Place.short_of_child hchild
      exact hemp k hlt
    refine hadd.mono fun p b' hroot => ?_
    obtain ⟨hpath, hslot, hne, c'', hc'' | ⟨hino, rfl⟩, hhas', hptr⟩ := hroot
    · exact .inl ⟨hpath, hslot, hne, c'', hc'', hhas', hptr⟩
    rw [hblock] at hptr
    by_cases ht : p.slot = t
    · cases p
      simp_all
    · rw [update_of_ne ht] at hptr
      exact .inl ⟨hpath, hslot, hne, c, hino ▸ hc, hhas, hptr⟩
  valid := h.valid_update hb _
  __ := h

/-- A new block in a block of pointers. -/
theorem setWord {p q : Place} (ht : owner t = some p) (hq : p.child fs k = some q)
    (hb : Fresh fs v owner b) (hemp : ∀ k, q.path.length < depth q.slot → v.link b k = none) :
    Owned fs (v.setWord t k b) C (update owner b (some q)) where
  labels := by
    have hlt : b < 2 ^ 32 := hb.inRange.2.trans fs.blocksCount_lt
    have hne : b ≠ t := by
      rintro rfl
      rw [hb.owner] at ht
      cases ht
    refine h.labels.addLink ht hq hb.owner (fun k' hchild => ?_) ?_ fun b' _ k' c _ _ hcell hc => ?_
    · rw [Volume.setWord, link_writeBlock_of_ne hne]
      exact hemp k' (Place.short_of_child hchild)
    · rw [Volume.link, word_setWord_self hlt, if_neg hb.ne_zero]
    · rw [Volume.link, word_setWord_of_ne hcell] at hc
      exact hc
  valid := h.valid_update hb _
  __ := h

/-- An inode is given up with all its blocks. -/
theorem drop (ino : Nat) (hsub : ∀ ino' c, C' ino' c → C ino' c ∧ ino' ≠ ino) :
    Owned fs v C' (fun b => (owner b).filter fun p => decide (¬ p.ino = ino)) where
  labels := by
    refine h.labels.drop (fun p => p.ino = ino) (fun p q b k hq => ?_) fun p b hroot => ?_
    · obtain ⟨-, rfl⟩ := ite_eq_some hq
      exact Iff.rfl
    · obtain ⟨hpath, hslot, hne, c, hc, hrest⟩ := hroot
      obtain ⟨hc, hino⟩ := hsub _ _ hc
      exact ⟨⟨hpath, hslot, hne, c, hc, hrest⟩, hino⟩
  valid b p hp := h.valid b p (Option.filter_eq_some_iff.mp hp).1
  __ := h

end

end Owned

/-! ### Following pointers -/

/-- The block at a place, or zero. -/
def blockAt (v : Volume) (c : Inode) (t : Nat) (q : List Nat) : Nat := follow v (c.iBlock t) q

/-- A slot of the inode and a way from there. -/
structure IsPlace (fs : Layout) (t : Nat) (q : List Nat) : Prop where
  slot : t < nBlocks
  length : q.length ≤ depth t
  ptrs : ∀ k ∈ q, k < fs.ptrsPerBlock

/-- The place of a pointer block. -/
structure IsTable (fs : Layout) (t : Nat) (q : List Nat) : Prop extends IsPlace fs t q where
  short : q.length < depth t

variable {t k : Nat} {q : List Nat}

theorem IsPlace.parent (h : IsPlace fs t (q ++ [k])) : IsTable fs t q := by
  have hlen := h.length
  rw [length_append] at hlen
  exact ⟨⟨h.slot, by omega, fun k hk => h.ptrs k (mem_append_left _ hk)⟩, hlen⟩

theorem follow_append (v : Volume) (b : Nat) (path rest : List Nat) :
    follow v b (path ++ rest) = follow v (follow v b path) rest := by
  induction path generalizing b with
  | nil => rfl
  | cons k ks ih =>
    rw [cons_append, follow, follow]
    split
    · rw [follow_zero]
    · exact ih _

theorem blockAt_snoc (v : Volume) (c : Inode) (t : Nat) (q : List Nat) (k : Nat) :
    blockAt v c t (q ++ [k]) = if blockAt v c t q = 0 then 0 else v.word (blockAt v c t q) k := by
  rw [blockAt, follow_append]
  rfl

theorem Owned.blockAt_owner (h : Owned fs v C owner) (hc : C ino c) (hhas : c.HasBlocks)
    (hq : IsPlace fs t q) (hne : blockAt v c t q ≠ 0) :
    owner (blockAt v c t q) = some ⟨ino, t, q⟩ := by
  induction q using List.reverseRecOn with
  | nil => exact h.labels.root _ _ ⟨rfl, hq.slot, hne, c, hc, hhas, rfl⟩
  | append_singleton q k ih =>
    rw [blockAt_snoc] at hne ⊢
    split at hne
    · exact absurd rfl hne
    case isFalse hzero =>
    rw [if_neg hzero]
    have htable := hq.parent
    have hk := hq.ptrs k (mem_append_right _ mem_cons_self)
    exact h.labels.link _ _ _ _ k (ih htable.toIsPlace hzero) (if_pos ⟨htable.short, hk⟩)
      (if_neg hne)

theorem slotPath_spec (h : slotPath fs l = some (t, path)) :
    t < nBlocks ∧ path.length = depth t ∧ ∀ k ∈ path, k < fs.ptrsPerBlock := by
  unfold slotPath at h
  simp only at h
  split at h
  case isTrue hl =>
    cases h
    refine ⟨lt_trans hl (by decide), ?_, fun k hk => by cases hk⟩
    unfold depth
    rw [Nat.sub_eq_zero_of_le hl]
    rfl
  split at h
  case isTrue hl =>
    cases h
    refine ⟨by decide, rfl, fun k hk => ?_⟩
    rw [mem_singleton.mp hk]
    exact hl
  split at h
  case isTrue hl =>
    cases h
    have hpos : 0 < fs.ptrsPerBlock := Nat.pos_of_mul_pos_right (Nat.zero_lt_of_lt hl)
    refine ⟨by decide, rfl, ?_⟩
    simp only [mem_cons, not_mem_nil, or_false, forall_eq_or_imp, forall_eq]
    exact ⟨Nat.div_lt_of_lt_mul hl, Nat.mod_lt _ hpos⟩
  split at h
  case isTrue hl =>
    cases h
    have hpos : 0 < fs.ptrsPerBlock := Nat.pos_of_mul_pos_left (Nat.zero_lt_of_lt hl)
    refine ⟨by decide, rfl, ?_⟩
    simp only [mem_cons, not_mem_nil, or_false, forall_eq_or_imp, forall_eq]
    exact ⟨Nat.div_lt_of_lt_mul hl, Nat.mod_lt _ hpos, Nat.mod_lt _ hpos⟩
  · cases h

theorem isPlace_of_slotPath (h : slotPath fs l = some (t, path)) : IsPlace fs t path :=
  have ⟨ht, hlen, hptrs⟩ := slotPath_spec h
  ⟨ht, le_of_eq hlen, hptrs⟩

namespace Owned

/-- The block of a file stands at the end of the path for its logical block. -/
theorem mapBlock_owner (h : Owned fs v C owner) (hc : C ino c) (hhas : c.HasBlocks)
    (hne : mapBlock fs v c l ≠ 0) :
    ∃ t path, slotPath fs l = some (t, path) ∧ owner (mapBlock fs v c l) = some ⟨ino, t, path⟩ := by
  unfold mapBlock at hne ⊢
  split at hne
  · exact absurd rfl hne
  case h_2 t path heq =>
  exact ⟨t, path, heq, h.blockAt_owner hc hhas (isPlace_of_slotPath heq) hne⟩

/-- A block of data of the file is written. -/
theorem writeData (h : Owned fs v C owner) (hdisk : v.SameDisk v') (hc : C ino c)
    (hhas : c.HasBlocks) (hb : mapBlock fs v c l = b) (hne : b ≠ 0) (buf : Buffer) :
    Owned fs (v'.writeBlock b buf) C owner := by
  subst hb
  obtain ⟨t, path, hpath, howner⟩ := h.mapBlock_owner hc hhas hne
  refine (h.grows hdisk.grows).writeBlock buf fun p hp => ?_
  cases howner.symm.trans hp
  exact (slotPath_spec hpath).2.1

end Owned

end Kurios.Ext2
