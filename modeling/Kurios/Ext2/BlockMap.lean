import Kurios.Ext2.Run

/-!
Where the logical blocks of a file are, before and after one is added.

The pointer blocks of an inode form a tree (`Tree`): no two places have the same block. So
`ext2_set_block` changes the place of one logical block and the data of no block
(`setBlock_mapped`), and `ext2_get_block` finds it there (`setBlock_lens`).
-/

namespace Kurios.Ext2

open Base Errno Volume Function List

variable {fs : Layout} {v v' v1 : Volume} {C : Nat → Inode → Prop} {owner : Nat → Option Place}
  {ino b phys l l' : Nat} {c : Inode}

/-! ### Paths -/

/-- The logical block at the end of a path. -/
def logicalOf (fs : Layout) (t : Nat) : List Nat → Nat
  | [] => t
  | [k] => ndirBlocks + k
  | [i, j] => ndirBlocks + fs.ptrsPerBlock + (fs.ptrsPerBlock * i + j)
  | i :: j :: k :: _ =>
    ndirBlocks + fs.ptrsPerBlock + fs.ptrsPerBlock * fs.ptrsPerBlock +
      (fs.ptrsPerBlock * (fs.ptrsPerBlock * i + j) + k)

theorem logicalOf_slotPath {t path} (h : slotPath fs l = some (t, path)) :
    logicalOf fs t path = l := by
  unfold slotPath at h
  simp only at h
  split at h
  · cases h
    rfl
  case isFalse hdirect =>
  split at h
  · cases h
    simp only [logicalOf]
    omega
  case isFalse hind =>
  split at h
  · cases h
    simp only [logicalOf, Nat.div_add_mod]
    omega
  case isFalse hdind =>
  split at h <;> cases h
  · simp only [logicalOf]
    rw [← Nat.div_div_eq_div_mul, Nat.div_add_mod, Nat.div_add_mod]
    omega

theorem slotPath_inj {p} (h : slotPath fs l = some p) (h' : slotPath fs l' = some p) : l = l' :=
  (logicalOf_slotPath h).symm.trans (logicalOf_slotPath h')

/-! ### Pointer blocks -/

/-- The place of a block that holds data, not pointers. -/
def Place.IsData (p : Place) : Prop := p.path.length = depth p.slot

/-- Allocation does not return the block. -/
def Volume.Taken (fs : Layout) (v : Volume) (b : Nat) : Prop := fs.InRange b → v.used fs b = true

theorem Volume.Quiet.taken (h : Quiet fs v v') (hb : v.Taken fs b) : v'.Taken fs b :=
  fun hrng => h.used b hrng (hb hrng)

/-- The pointer blocks of an inode are pairwise distinct, and allocation does not return them. -/
structure Tree (fs : Layout) (v : Volume) (c : Inode) : Prop where
  distinct : ∀ {t q t' q'}, IsTable fs t q → IsTable fs t' q' → blockAt v c t q ≠ 0 →
    blockAt v c t q = blockAt v c t' q' → t = t' ∧ q = q'
  taken : ∀ {t q}, IsTable fs t q → blockAt v c t q ≠ 0 → v.Taken fs (blockAt v c t q)

variable {c' : Inode} {t t' k : Nat} {q q' : List Nat}

/-- Only the words on the way matter. -/
theorem blockAt_frame (hq : IsPlace fs t q) (hsame : ∀ q k, IsTable fs t q → blockAt v c t q ≠ 0 →
    v'.word (blockAt v c t q) k = v.word (blockAt v c t q) k) :
    blockAt v' c t q = blockAt v c t q := by
  induction q using List.reverseRecOn with
  | nil => rfl
  | append_singleton q k ih =>
    rw [blockAt_snoc, blockAt_snoc, ih hq.parent.toIsPlace]
    split
    · rfl
    case isFalse hne => exact hsame q k hq.parent hne

/-- What holds of the blocks at all places holds of the logical blocks. -/
theorem mapBlock_of_places (hsame : ∀ t q, slotPath fs l = some (t, q) → IsPlace fs t q →
    blockAt v' c' t q = blockAt v c t q) : mapBlock fs v' c' l = mapBlock fs v c l := by
  unfold mapBlock
  split
  · rfl
  case h_2 t q hpath => exact hsame t q hpath (isPlace_of_slotPath hpath)

namespace Owned

section

variable (h : Owned fs v C owner) (hc : C ino c) (hhas : c.HasBlocks)
include h hc hhas

theorem tree : Tree fs v c where
  distinct hq hq' hne heq := by
    have howner := h.blockAt_owner hc hhas hq.toIsPlace hne
    rw [heq, h.blockAt_owner hc hhas hq'.toIsPlace (heq ▸ hne)] at howner
    cases howner
    exact ⟨rfl, rfl⟩
  taken hq hne _ := (h.valid _ _ (h.blockAt_owner hc hhas hq.toIsPlace hne)).2.1

/-- The contents of blocks without pointers do not matter. -/
theorem mapBlock_of_data (hsame : ∀ b p, owner b = some p → ¬ p.IsData → v'.data b = v.data b)
    (l : Nat) : mapBlock fs v' c l = mapBlock fs v c l := by
  refine mapBlock_of_places fun t q _ hq => blockAt_frame hq fun q k htable hne => ?_
  rw [word, word, hsame _ _ (h.blockAt_owner hc hhas htable.toIsPlace hne) (ne_of_lt htable.short)]

end

end Owned

/-- A pointer that is set changes the block at its place, and at no place that is not below. -/
theorem Tree.blockAt_put (h : Tree fs v c) (hput : Put v c b t q v' c') (hb : b < 2 ^ 32)
    (hq : IsPlace fs t q) (hq' : IsPlace fs t' q') (hbelow : t' = t → q <+: q' → q' = q) :
    blockAt v' c' t' q' = if t' = t ∧ q' = q then b else blockAt v c t' q' := by
  induction q' using List.reverseRecOn with
  | nil =>
    cases hput with
    | slot =>
      by_cases ht : t' = t
      · rw [if_pos ⟨ht, rfl⟩, ht]
        exact update_self _ _ _
      · rw [if_neg fun hboth => ht hboth.1]
        exact update_of_ne ht _ _
    | word => simp [blockAt, follow]
  | append_singleton r k' ih =>
    have hlong : ¬ r ++ [k'] <+: r := fun hle => by simpa using hle.length_le
    have habove : ¬ (t' = t ∧ q <+: r) := by
      rintro ⟨ht, hr⟩
      exact hlong (hbelow ht (hr.trans (prefix_append _ _)) ▸ hr)
    have hr : ¬ (t' = t ∧ r = q) := by
      rintro ⟨ht, hr⟩
      exact habove ⟨ht, hr ▸ prefix_refl r⟩
    rw [blockAt_snoc, blockAt_snoc, ih hq'.parent.toIsPlace fun ht hr => absurd ⟨ht, hr⟩ habove,
      if_neg hr]
    cases hput with
    | slot => simp
    | @word _ q0 k hx hne =>
      subst hx
      by_cases hsame : t' = t ∧ r ++ [k'] = q0 ++ [k]
      · obtain ⟨rfl, hsame⟩ := hsame
        obtain ⟨rfl, ⟨⟩⟩ := append_inj' hsame rfl
        rw [if_neg hne, if_pos ⟨rfl, rfl⟩, word_setWord_self hb]
      split
      · rfl
      case isFalse hzero =>
      refine word_setWord_of_ne ?_
      by_contra hboth
      obtain ⟨heq, rfl⟩ : _ ∧ k' = k := by simpa using hboth
      -- The words of two tables are in different blocks.
      obtain ⟨rfl, rfl⟩ := h.distinct hq'.parent hq.parent hzero heq
      exact hsame ⟨rfl, rfl⟩

theorem Put.data_eq (hput : Put v c b t q v' c') (hq : IsPlace fs t q) {b'}
    (hnot : ∀ t q, IsTable fs t q → blockAt v c t q ≠ b') : v'.data b' = v.data b' := by
  cases hput with
  | slot => rfl
  | word k hx hne =>
    subst hx
    exact update_of_ne (hnot _ _ hq.parent).symm _ _

/-- The tree has the pointer blocks it had and perhaps new ones, and no logical block moves. -/
structure TreeGrows (fs : Layout) (v : Volume) (c : Inode) (v' : Volume) (c' : Inode) : Prop extends
    Tree fs v' c' where
  padded : v'.Padded fs
  keeps : ∀ b, v.Taken fs b → v'.Taken fs b
  map : ∀ l, mapBlock fs v' c' l = mapBlock fs v c l
  tables : ∀ t q, IsTable fs t q → blockAt v' c' t q = blockAt v c t q ∨
    ¬ v.Taken fs (blockAt v' c' t q)
  data : ∀ b, v.Taken fs b → (∀ t q, IsTable fs t q → blockAt v c t q ≠ b) → v'.data b = v.data b

namespace TreeGrows

theorem not_table (h : TreeGrows fs v c v' c') (hb : v.Taken fs b)
    (hne : ∀ t q, IsTable fs t q → blockAt v c t q ≠ b) (t : Nat) (q : List Nat)
    (hq : IsTable fs t q) : blockAt v' c' t q ≠ b := by
  rcases h.tables t q hq with hold | hfree
  · exact hold ▸ hne t q hq
  · rintro rfl
    exact hfree hb

theorem trans {v'' c''} (h : TreeGrows fs v c v' c')
    (h' : TreeGrows fs v' c' v'' c'') : TreeGrows fs v c v'' c'' where
  toTree := h'.toTree
  padded := h'.padded
  keeps b hb := h'.keeps b (h.keeps b hb)
  map l := (h'.map l).trans (h.map l)
  tables t q hq := by
    rcases h'.tables t q hq with heq | hfree
    · rw [heq]
      exact h.tables t q hq
    · exact .inr (mt (h.keeps _) hfree)
  data b hb hne := (h'.data b (h.keeps b hb) (h.not_table hb hne)).trans (h.data b hb hne)

end TreeGrows

namespace Tree

variable (h : Tree fs v c)
include h

theorem of_blockAt (hat : ∀ t q, IsTable fs t q → blockAt v' c t q = blockAt v c t q)
    (hkeeps : ∀ b, v.Taken fs b → v'.Taken fs b) : Tree fs v' c where
  distinct {t q t' q'} hq hq' := by
    rw [hat t q hq, hat t' q' hq']
    exact h.distinct hq hq'
  taken {t q} hq := by
    rw [hat t q hq]
    exact fun hne => hkeeps _ (h.taken hq hne)

theorem quiet (hpad : v.Padded fs) (hquiet : Quiet fs v v') : TreeGrows fs v c v' c where
  toTree := h.of_blockAt (fun _ _ _ => follow_congr hquiet.data _ _) fun _ => hquiet.taken
  padded := hquiet.padded hpad
  keeps _ := hquiet.taken
  map := mapBlock_congr hquiet.data c
  tables _ _ _ := .inl (follow_congr hquiet.data _ _)
  data b _ _ := congrFun hquiet.data b

/-- A pointer block without pointers is put where there was none. -/
theorem addTable (hpad : v.Padded fs) (hplace : IsTable fs t q) (hold : blockAt v c t q = 0)
    (hb : b ≠ 0) (halloc : Allocated fs v b v1)
    (hput : Put (v1.writeBlock b fun _ => 0) c b t q v' c') :
    TreeGrows fs v c v' (c'.addBlock fs) := by
  obtain ⟨hrng, hfree, hused⟩ := halloc.block hb
  have hquiet : Quiet fs v v1 := halloc.grows.quiet
  replace hfree : ¬ v.Taken fs b := fun htaken =>
    Bool.false_ne_true (hfree.symm.trans (htaken hrng))
  have hother : ∀ {t q}, IsTable fs t q → blockAt v c t q ≠ 0 → blockAt v c t q ≠ b :=
    fun hq hne heq => hfree (heq ▸ h.taken hq hne)
  -- The block is not one of the tree yet, so writing it changes nothing.
  have hat1 : ∀ {t q}, IsPlace fs t q →
      blockAt (v1.writeBlock b fun _ => 0) c t q = blockAt v c t q := fun hq => by
    refine blockAt_frame hq fun q k hq hne => ?_
    rw [word, writeBlock, hquiet.data, word]
    simp [update_of_ne (hother hq hne)]
  have htree1 : Tree fs (v1.writeBlock b fun _ => 0) c :=
    h.of_blockAt (fun _ _ hq => hat1 hq.toIsPlace) fun _ => hquiet.taken
  have hemp : ∀ k, v'.word b k = 0 := by
    intro k
    have hzero : v'.data b = fun _ => 0 := by
      refine (hput.data_eq hplace.toIsPlace fun t q hq => ?_).trans (update_self _ _ _)
      rw [hat1 hq.toIsPlace]
      by_cases hne : blockAt v c t q = 0
      · exact hne ▸ hb.symm
      · exact hother hq hne
    rw [word, hzero, load_zero]
  have hlt : b < 2 ^ 32 := hrng.2.trans fs.blocksCount_lt
  have hat : ∀ {t' q'}, IsPlace fs t' q' →
      blockAt v' c' t' q' = if t' = t ∧ q' = q then b else blockAt v c t' q' := by
    intro t' q' hq'
    by_cases hbelow : t' = t ∧ q <+: q' ∧ q' ≠ q
    · -- Nothing is below the new block, nor was anything there before.
      obtain ⟨rfl, ⟨rest, rfl⟩, hne⟩ := hbelow
      have hb := htree1.blockAt_put hput hlt hplace.toIsPlace hplace.toIsPlace fun _ _ => rfl
      rw [if_pos ⟨rfl, rfl⟩] at hb
      rw [if_neg fun hboth => hne hboth.2, blockAt, follow_append, ← blockAt, hb, blockAt,
        follow_append,
        ← blockAt, hold, follow_zero]
      cases rest with
      | nil => exact absurd (append_nil q) hne
      | cons k ks => rw [follow, hemp, follow_zero, ite_self]
    · rw [← hat1 hq', htree1.blockAt_put hput hlt hplace.toIsPlace hq' fun ht hle =>
        not_not.mp fun hne => hbelow ⟨ht, hle, hne⟩]
  have htable : ∀ {t' q'}, IsTable fs t' q' →
      blockAt v' c' t' q' = if t' = t ∧ q' = q then b else blockAt v c t' q' :=
    fun hq => hat hq.toIsPlace
  have hbits : v'.blockBitmap = v1.blockBitmap := by cases hput <;> rfl
  have hkeeps : ∀ b, v1.Taken fs b → v'.Taken fs b := fun b hb => by
    rwa [Taken, used, hbits]
  refine ⟨⟨fun {t1 q1 t2 q2} hq1 hq2 hne heq => ?_, fun {t1 q1} hq1 hne => ?_⟩, ?_,
    fun b hb => hkeeps b (hquiet.taken hb), fun l => mapBlock_of_places fun t' q' hpath hq' => ?_,
    fun t' q' hq' => ?_, fun b' hb' hnot => ?_⟩
  · change blockAt v' c' t1 q1 ≠ 0 at hne
    change blockAt v' c' t1 q1 = blockAt v' c' t2 q2 at heq
    rw [htable hq1] at hne heq
    rw [htable hq2] at heq
    split at heq <;> split at heq
    case isTrue.isTrue h1 h2 => exact ⟨h1.1.trans h2.1.symm, h1.2.trans h2.2.symm⟩
    case isTrue.isFalse => exact absurd heq.symm (hother hq2 (heq ▸ hb))
    case isFalse.isTrue h1 _ =>
      rw [if_neg h1] at hne
      exact absurd heq (hother hq1 hne)
    case isFalse.isFalse h1 _ =>
      rw [if_neg h1] at hne
      exact h.distinct hq1 hq2 hne heq
  · change v'.Taken fs (blockAt v' c' t1 q1)
    change blockAt v' c' t1 q1 ≠ 0 at hne
    rw [htable hq1] at hne ⊢
    split at hne
    case isTrue hnew =>
      rw [if_pos hnew]
      exact hkeeps b fun _ => hused
    case isFalse hnew =>
      rw [if_neg hnew]
      exact hkeeps _ (hquiet.taken (h.taken hq1 hne))
  · unfold Padded
    rw [hbits]
    exact hquiet.padded hpad
  · refine (hat hq').trans (if_neg ?_)
    rintro ⟨rfl, rfl⟩
    exact ne_of_lt hplace.short (slotPath_spec hpath).2.1
  · change blockAt v' c' t' q' = _ ∨ ¬ v.Taken fs (blockAt v' c' t' q')
    rw [htable hq']
    split
    · exact .inr hfree
    · exact .inl rfl
  rw [hput.data_eq hplace.toIsPlace fun t q hq => hat1 hq.toIsPlace ▸ hnot t q hq, ← hquiet.data]
  refine update_of_ne ?_ _ _
  rintro rfl
  exact hfree hb'

end Tree

/-! ### One logical block is added -/

/-- What `ext2_set_block` does to the places of logical blocks. -/
structure Mapped (fs : Layout) (v : Volume) (c : Inode) (l phys : Nat) (err : Int) (v' : Volume)
    (c' : Inode) : Prop where
  data : ∀ b, v.Taken fs b → (∀ t q, IsTable fs t q → blockAt v c t q ≠ b) → v'.data b = v.data b
  others : ∀ l', l' ≠ l → mapBlock fs v' c' l' = mapBlock fs v c l'
  done : err = vfsOk → mapBlock fs v' c' l = phys
  failed : err ≠ vfsOk → mapBlock fs v' c' l = mapBlock fs v c l

theorem TreeGrows.mapped {c1} (h : TreeGrows fs v c v1 c1)
    (hpath : slotPath fs l = some (t, q)) (hput : Put v1 c1 phys t q v' c')
    (hphys : phys < 2 ^ 32) : Mapped fs v c l phys vfsOk v' c' := by
  have hq := isPlace_of_slotPath hpath
  refine ⟨fun b hb hnot => ?_, fun l' hl => ?_, fun _ => ?_, absurd rfl⟩
  · rw [hput.data_eq hq (h.not_table hb hnot), h.data b hb hnot]
  · rw [← h.map l']
    refine mapBlock_of_places fun t' q' hpath' hq' => ?_
    -- A whole path leads to one logical block, and none is below another.
    have hne : ¬ (t' = t ∧ q' = q) := fun ⟨ht, hq⟩ => hl (slotPath_inj hpath' (ht ▸ hq ▸ hpath))
    rw [h.toTree.blockAt_put hput hphys hq hq' fun ht hle => ?_, if_neg hne]
    subst ht
    exact (hle.eq_of_length ((slotPath_spec hpath).2.1.trans (slotPath_spec hpath').2.1.symm)).symm
  · unfold mapBlock
    rw [hpath]
    exact (h.toTree.blockAt_put hput hphys hq hq fun _ _ => rfl).trans (if_pos ⟨rfl, rfl⟩)

theorem setBlock_mapped (h : Tree fs v c) (hpad : v.Padded fs) (hphys : phys < 2 ^ 32)
    (l group : Nat) :
    Mapped fs v c l phys (setBlock fs v c l phys group).1
      (setBlock fs v c l phys group).2.1 (setBlock fs v c l phys group).2.2 := by
  refine setBlock_rule (fun _ _ h => h.padded)
    (fun _ _ _ h hquiet => h.trans (h.toTree.quiet h.padded hquiet))
    (fun h hq hold hb halloc hput => h.trans (h.toTree.addTable h.padded hq hold hb halloc hput))
    (h.quiet hpad (SameDisk.refl v).grows.quiet) l group (fun v' c' err h herr => ?_)
    fun h hpath hput => h.mapped hpath hput hphys
  exact ⟨h.data, fun l' _ => h.map l', fun hok => absurd hok herr, fun _ => h.map l⟩

theorem kmalloc_of_mem (hmem : v.mem = []) : v.kmalloc = (true, v) := by
  rw [kmalloc, hmem]

/-- What `ext2_get_block` returns when there is memory for its buffers. -/
def readMap (fs : Layout) (v : Volume) (c : Inode) (l : Nat) : Nat :=
  (getBlock fs { v with mem := [] } c l).1

theorem readMap_eq (fs : Layout) (v : Volume) (c : Inode) (l : Nat) :
    readMap fs v c l = mapBlock fs v c l := by
  rw [readMap, getBlock_of_kmalloc (kmalloc_of_mem rfl)]
  exact mapBlock_congr (by rfl) c l

/-- After `ext2_set_block`, `ext2_get_block` returns the block that was set, and for the other
logical blocks what it returned before. If it fails, nothing is different. -/
theorem setBlock_lens (h : Tree fs v c) (hpad : v.Padded fs) (hphys : phys < 2 ^ 32)
    (l group : Nat) : let r := setBlock fs v c l phys group
    (r.1 = vfsOk → readMap fs r.2.1 r.2.2 l = phys ∧
      ∀ m, m ≠ l → readMap fs r.2.1 r.2.2 m = readMap fs v c m) ∧
    (r.1 ≠ vfsOk → ∀ m, readMap fs r.2.1 r.2.2 m = readMap fs v c m) := by
  have hmapped := setBlock_mapped h hpad hphys l group
  simp only [readMap_eq]
  refine ⟨fun herr => ⟨hmapped.done herr, hmapped.others⟩, fun herr m => ?_⟩
  by_cases hm : m = l
  · exact hm ▸ hmapped.failed herr
  · exact hmapped.others m hm

/-- A file with an indirect block, in which it has its logical block 12, gets its block 13. -/
theorem setBlock_lens_indirect :
    ∃ s, GuardedRun (Mount.step smallLayout) (Mount.Careful smallLayout) emptyMount
        [.create 0 [97] .regular, .lookup 0 [97] 1, .write 1 (fun _ => 6) 3 12290] s ∧
      ((s.node 1).inode.iBlock indBlock ≠ 0 ∧ readMap smallLayout s.vol (s.node 1).inode 12 = 9 ∧
        (setBlock smallLayout s.vol (s.node 1).inode 13 20 0).1 = vfsOk) ∧
      (1 ∈ s.addrs ∧ (s.node 1).inode.iMode = .regular) ∧
      let r := setBlock smallLayout s.vol (s.node 1).inode 13 20 0
      readMap smallLayout r.2.1 r.2.2 13 = 20 ∧ readMap smallLayout r.2.1 r.2.2 12 = 9 := by
  apply exists_and_of₂ (by decide +kernel)
  rintro s hrun ⟨-, hread, hok⟩ ⟨hn, hmode⟩
  have hcons := hrun.inv (Mount.Consistent smallLayout) (fun _ _ _ h => h.step)
    consistent_emptyMount
  obtain ⟨owner, hown⟩ := hcons.owned
  have htree := hown.tree (Mount.node_copy hn) (Inode.IsFile.hasBlocks (.inl hmode))
  obtain ⟨hget, hothers⟩ := (setBlock_lens htree hcons.padded
    (by decide : 20 < 2 ^ 32) 13 0).1 hok
  exact ⟨hget, (hothers 12 (by decide)).trans hread⟩

end Kurios.Ext2
