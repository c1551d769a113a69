import Kurios.Fat32.Entries

/-!
A mounted FAT32 volume: the volume with the nodes of the virtual file system for it.

Every lookup makes a node of its own, which holds a copy of the directory entry. `Coherent`
is the invariant: clusters have one place each, the first cluster of a file with a node being
the one in the node; a file has one node at most; and the slot of a node still holds an entry
for the same file. The lemmas of this module say that the operations keep it.
-/

namespace Kurios.Fat32

open Base Owned Function List Finset Bool

variable {src : Nat → Nat → Dirent} {e offset size : Nat} {ret : Int} {cs name : List Nat}
  {t : Slot} {v1 : Volume}

variable {fs : Layout} {v v' : Volume} {R R' : Place → Nat → Prop}
  {opened : Nat → Nat → Bool} {owner owner' owner'' : Nat → Option Place} {p q : Place}
  {b c i new fuel : Nat} {node node' : Node}

/-! ### Files on a volume -/

/-- A pointer of a node, unless it is 0. -/
def rootAt (R : Place → Nat → Prop) (p : Place) (c : Nat) (q : Place) (b : Nat) : Prop :=
  R q b ∨ (q = p ∧ b = c ∧ c ≠ 0)

theorem Owned.rootAt (h : Owned fs v R opened owner) (hc : c ≠ 0 → owner c = some p)
    (hvia : ∀ d, p.via ≠ .next d) : Owned fs v (rootAt R p c) opened owner := by
  refine .of_placed (fun q b hq => ?_) (fun b q => h.placed) h.limit
  rcases hq with hq | ⟨rfl, rfl, hne⟩
  · exact ⟨h.labels.root q b hq, (h.heads q b · hq)⟩
  · exact ⟨hc hne, hvia⟩

/-- The node is for the same slot. -/
structure SamePlace (node node' : Node) : Prop where
  isDir : node'.isDir = node.isDir
  dirCluster : node'.dirCluster = node.dirCluster
  dirIndex : node'.dirIndex = node.dirIndex

/-- What an operation on a file leaves of its node. -/
structure Kept (node node' : Node) : Prop extends SamePlace node node' where
  dirent : ∀ name attr size, node.dirent = .short name attr node.firstCluster size →
    ∃ size', node'.dirent = .short name attr node'.firstCluster size'
  clean : node'.dirty = false → node.dirty = false ∧ node'.firstCluster = node.firstCluster

theorem Kept.refl (node : Node) : Kept node node :=
  ⟨⟨rfl, rfl, rfl⟩, fun _ _ size h => ⟨size, h⟩, fun h => ⟨h, rfl⟩⟩

theorem Kept.trans {node''} (h : Kept node node') (h' : Kept node' node'') : Kept node node'' where
  isDir := h'.isDir.trans h.isDir
  dirCluster := h'.dirCluster.trans h.dirCluster
  dirIndex := h'.dirIndex.trans h.dirIndex
  dirent name attr size hd := by
    obtain ⟨size', hd'⟩ := h.dirent name attr size hd
    exact h'.dirent name attr size' hd'
  clean hclean := by
    obtain ⟨hclean', heq'⟩ := h'.clean hclean
    obtain ⟨hclean'', heq⟩ := h.clean hclean'
    exact ⟨hclean'', heq'.trans heq⟩

/-- The size of a file changes. -/
theorem Kept.setSize (node : Node) (size : Nat) :
    Kept node { node with size := size, dirent := node.dirent.setSize size, dirty := true } := by
  refine ⟨⟨rfl, rfl, rfl⟩, fun name attr size' hd => ⟨size % 2 ^ 32, ?_⟩, fun h => by cases h⟩
  simp [hd, Dirent.setSize]

section

variable (hnode : node.firstCluster ≠ 0 → owner node.firstCluster = some p)
include hnode

section

variable (h : Owned fs v R opened owner) (hp : p.kind = .file) (hvia : ∀ d, p.via ≠ .next d)
include h hp hvia

theorem firstCluster_spec (hfirst : firstCluster fs v node = some (v', node')) :
    ∃ owner', Grown fs (rootAt R p node'.firstCluster) opened v owner v' owner' ∧
      Kept node node' ∧ (node'.firstCluster ≠ 0 → owner' node'.firstCluster = some p) := by
  unfold firstCluster at hfirst
  split at hfirst
  case isFalse =>
    cases hfirst
    exact ⟨owner, .refl (h.rootAt hnode hvia), .refl node, hnode⟩
  case isTrue hzero =>
  split at hfirst
  · cases hfirst
  case h_2 new v1 halloc =>
  obtain ⟨rfl, rfl⟩ | halloc := allocCluster_spec halloc
  · cases hfirst
    exact ⟨owner, .refl (h.rootAt hnode hvia), .refl node, hnode⟩
  rw [if_neg (halloc.isValid h.limit).ne_zero] at hfirst
  cases hfirst
  have hgr := h.grown_fill halloc fun _ => .zero
  obtain ⟨-, hfresh⟩ := h.alloc halloc
  have hfresh' : Fresh (v1.zeroCluster new) owner new := ⟨hfresh.owner, hfresh.valid, hfresh.ended⟩
  have hadded := hgr.owned.addFile hfresh' hp hvia
  refine ⟨_, ⟨hadded.mono fun q b hq => ?_, fun b q hb => update_of_label hfresh.owner hb _,
    hgr.dirs, fun b hb hused => ?_⟩, ?_, fun _ => update_self _ _ _⟩
  · exact hq.imp_right fun ⟨hqp, hbn, _⟩ => ⟨hqp, hbn⟩
  · obtain ⟨hnone, hrest⟩ := hgr.others b hb hused
    refine ⟨(update_of_ne ?_ _ _).trans hnone, hrest⟩
    rintro rfl
    exact hused halloc.free
  · refine ⟨⟨rfl, rfl, rfl⟩, fun name attr size hd => ⟨size, ?_⟩, fun hd => by cases hd⟩
    simp [hd, Dirent.setCluster]

theorem fileWrite_spec (hwrite : fileWrite fs v node src size offset = some (ret, v', node')) :
    ∃ owner', Grown fs (rootAt R p node'.firstCluster) opened v owner v' owner' ∧
      Kept node node' := by
  unfold fileWrite at hwrite
  iterate 2
    split at hwrite
    · cases hwrite
      exact ⟨owner, .refl (h.rootAt hnode hvia), .refl node⟩
  split at hwrite
  · cases hwrite
  case h_2 v1 node1 hfirst =>
  obtain ⟨owner1, hgr, hkept, howner⟩ := firstCluster_spec hnode h hp hvia hfirst
  split at hwrite
  · cases hwrite
    exact ⟨owner1, hgr, hkept⟩
  case isFalse hne =>
  split at hwrite
  · cases hwrite
  case h_2 c v2 hseek =>
  obtain ⟨owner2, hgrown2, hfile⟩ := seek_spec hgr.owned (howner hne) hp hseek
  split at hwrite
  · cases hwrite
    exact ⟨owner2, hgr.trans hgrown2, hkept⟩
  case isFalse hne' =>
  split at hwrite
  · cases hwrite
  case h_2 left v3 hloop =>
  obtain ⟨q, hq, hqfile⟩ := hfile hne'
  obtain ⟨owner3, hgrown3⟩ := writeLoop_spec hgrown2.owned hq hqfile hloop
  have hall := (hgr.trans hgrown2).trans hgrown3
  cases hwrite
  split
  · exact ⟨owner3, hall, hkept.trans (Kept.setSize node1 _)⟩
  · exact ⟨owner3, hall, hkept⟩

end

end

section

variable (htrunc : fileTruncate fs v node size = some (ret, v', node'))
include htrunc

/-- Truncation frees the chain of the file, cuts it off, or leaves the volume alone. -/
theorem fileTruncate_cases : Kept node node' ∧
    ((node'.firstCluster = node.firstCluster ∧
        (v' = v ∨ ∃ n, cutChain v node.firstCluster n = some v')) ∨
      (node'.firstCluster = 0 ∧ node.firstCluster ≠ 0 ∧
        freeChain clusterLimit v node.firstCluster = some v')) := by
  unfold fileTruncate at htrunc
  iterate 2
    split at htrunc
    · cases htrunc
      exact ⟨.refl node, .inl ⟨rfl, .inl rfl⟩⟩
  split at htrunc
  · split at htrunc
    case isFalse =>
      cases htrunc
      exact ⟨.setSize node _, .inl ⟨rfl, .inl rfl⟩⟩
    case isTrue hne =>
    split at htrunc
    · cases htrunc
    case h_2 hfree =>
    cases htrunc
    refine ⟨⟨⟨rfl, rfl, rfl⟩, fun name attr size' hd => ⟨size % 2 ^ 32, ?_⟩, fun hd => ?_⟩,
      .inr ⟨rfl, hne, hfree⟩⟩
    · simp [hd, Dirent.setCluster, Dirent.setSize]
    · cases hd
  split at htrunc
  · split at htrunc
    · cases htrunc
    case h_2 hcut =>
      cases htrunc
      exact ⟨.setSize node _, .inl ⟨rfl, .inr ⟨_, hcut⟩⟩⟩
  · cases htrunc
    exact ⟨.setSize node _, .inl ⟨rfl, .inl rfl⟩⟩

/-- Truncation frees clusters of the file only. -/
theorem fileTruncate_spec (h : Owned fs v R opened owner) (hopen : opened c i = true)
    (hnode : node.firstCluster ≠ 0 → owner node.firstCluster = some ⟨.file, .slot c i⟩)
    (hsub : ∀ q b, R' q b → R q b)
    (hgone : node.firstCluster ≠ 0 → node'.firstCluster = 0 → ∀ q, ¬ R' q node.firstCluster) :
    ∃ owner', Owned fs v' R' opened owner' ∧ v'.dirs = v.dirs ∧
      ∀ b q, owner b = some q → q.kind = .dir → owner' b = some q := by
  have hvia : ∀ d, (⟨.file, .slot c i⟩ : Place).via ≠ .next d := fun d hd => by cases hd
  obtain ⟨-, ⟨-, rfl | ⟨n, hcut⟩⟩ | ⟨hzero, hne, hfree⟩⟩ := fileTruncate_cases htrunc
  · exact ⟨owner, h.mono hsub, rfl, fun _ _ hb _ => hb⟩
  · by_cases hne : node.firstCluster = 0
    · -- A file without clusters has none to cut off.
      have hwalk : ∀ n, walk v n 0 = 0 := by
        intro n
        cases n with
        | zero => rfl
        | succ n => exact if_neg not_isValid_zero
      rw [hne, cutChain, hwalk] at hcut
      cases hcut
      exact ⟨owner, h.mono hsub, rfl, fun _ _ hb _ => hb⟩
    · obtain ⟨owner', hown, hdirs, hkeep⟩ := cutChain_spec h (hnode hne) rfl hvia hcut
      exact ⟨owner', hown.mono hsub, hdirs, hkeep⟩
  obtain ⟨cs, e, hchain⟩ := h.exists_chain (hnode hne) hvia
  have hroot : ∀ q b, R' q b → R q b ∧ b ≠ node.firstCluster :=
    fun q b hq => ⟨hsub q b hq, fun heq => hgone hne hzero q (heq ▸ hq)⟩
  refine h.freed hchain (hnode hne) rfl hfree hroot fun b hunder => ?_
  -- The slot of an open file does not count.
  obtain ⟨⟨⟩, -⟩ | ⟨i, hslot, hcnts⟩ := hunder
  injection hslot with hkind hvia
  cases hvia
  obtain hdir | hnot := hcnts.2
  · simp [Dirent.kind, hdir] at hkind
  · simp [hopen] at hnot

end

/-! ### Mounted volumes -/

structure Mount where
  vol : Volume
  addrs : Finset Nat
  node : Nat → Node

/-- The slot of a node. -/
def Node.slot (fs : Layout) (node : Node) : Nat × Nat :=
  (node.dirCluster, node.dirIndex % fs.entriesPerCluster)

/-- The place of the first cluster. -/
def Node.place (fs : Layout) (node : Node) : Place :=
  if node.isDir then
    ⟨.dir, if node.dirCluster = 0 then .root else .slot (node.slot fs).1 (node.slot fs).2⟩
  else ⟨.file, .slot (node.slot fs).1 (node.slot fs).2⟩

namespace Mount

section

variable (fs : Layout) (s : Mount)

/-- A node is for the file of this slot. -/
def isOpened (c i : Nat) : Bool :=
  ∃ n ∈ s.addrs, (s.node n).isDir = false ∧ (s.node n).slot fs = (c, i)

/-- The pointers to first clusters outside of directories. -/
def roots (p : Place) (b : Nat) : Prop :=
  (p = ⟨.dir, .root⟩ ∧ b = fs.rootCluster) ∨
    ∃ n ∈ s.addrs, p = (s.node n).place fs ∧ b = (s.node n).firstCluster ∧ b ≠ 0

/-- The pointers other than that of node `n`. -/
def rootsBut (n : Nat) (p : Place) (b : Nat) : Prop :=
  (p = ⟨.dir, .root⟩ ∧ b = fs.rootCluster) ∨
    ∃ m ∈ s.addrs, m ≠ n ∧ p = (s.node m).place fs ∧ b = (s.node m).firstCluster ∧ b ≠ 0

end

theorem roots_of_rootsBut {fs : Layout} {s : Mount} {n b : Nat} {p : Place}
    (h : s.rootsBut fs n p b) : s.roots fs p b :=
  h.imp_right fun ⟨m, hm, _, hrest⟩ => ⟨m, hm, hrest⟩

/-- The node has this type. -/
def Has (s : Mount) (n : Nat) (isDir : Bool) : Prop := n ∈ s.addrs ∧ (s.node n).isDir = isDir
deriving Decidable

/-- No node is for this slot. -/
def NotOpen (fs : Layout) (s : Mount) (c i : Nat) : Prop :=
  ∀ n ∈ s.addrs, (s.node n).slot fs ≠ (c, i)
deriving Decidable

/-- A call changes the volume and one node. -/
def update (s : Mount) (v : Volume) (n : Nat) (node : Node) : Mount :=
  { s with vol := v, node := Function.update s.node n node }

end Mount

/-- The node of a file and the slot of its entry. -/
structure FileOk (fs : Layout) (v : Volume) (owner : Nat → Option Place) (node : Node) : Prop where
  owner : ∃ p, owner node.dirCluster = some p ∧ p.kind = .dir
  listed : Listed fs v (node.slot fs).1 (node.slot fs).2
  entry : (v.dirs (node.slot fs).1 (node.slot fs).2).IsEntry
  file : (v.dirs (node.slot fs).1 (node.slot fs).2).isDir = false
  same : ∃ name attr cluster size size',
    v.dirs (node.slot fs).1 (node.slot fs).2 = .short name attr cluster size ∧
      node.dirent = .short name attr node.firstCluster size' ∧
      (node.dirty = false → cluster = node.firstCluster)

structure Mount.Coherent (fs : Layout) (s : Mount) (owner : Nat → Option Place) : Prop where
  owned : Owned fs s.vol (s.roots fs) (s.isOpened fs) owner
  files : ∀ n, s.Has n false → FileOk fs s.vol owner (s.node n)
  distinct : ∀ n m, s.Has n false → s.Has m false → (s.node n).slot fs = (s.node m).slot fs → n = m

variable {s : Mount} {n : Nat}

theorem FileOk.congr (h : FileOk fs v owner node)
    (howner : ∀ p, owner node.dirCluster = some p → p.kind = .dir → owner' node.dirCluster = some p)
    (hslot : v'.dirs (node.slot fs).1 (node.slot fs).2 = v.dirs (node.slot fs).1 (node.slot fs).2)
    (hlst : Listed fs v' (node.slot fs).1 (node.slot fs).2) : FileOk fs v' owner' node where
  owner := by
    obtain ⟨p, hp, hdir⟩ := h.owner
    exact ⟨p, howner p hp hdir, hdir⟩
  listed := hlst
  entry := by
    rw [hslot]
    exact h.entry
  file := by
    rw [hslot]
    exact h.file
  same := by
    rw [hslot]
    exact h.same

/-- The slot of a file that is open stays while its directory does. -/
theorem FileOk.of_dirs (h : FileOk fs v owner node)
    (hdirs : ∀ b p, owner b = some p → p.kind = .dir → owner' b = some p ∧ v'.dirs b = v.dirs b) :
    FileOk fs v' owner' node := by
  obtain ⟨p, hp, hdir⟩ := h.owner
  have hsame := (hdirs _ p hp hdir).2
  refine h.congr (fun q hq hdir' => (hdirs _ q hq hdir').1) ?_ ?_
  · exact congrFun hsame _
  · have hlst := h.listed
    unfold Listed
    rwa [show v'.dirs (node.slot fs).1 = v.dirs (node.slot fs).1 from hsame]

theorem FileOk.kept (h : FileOk fs v owner node) (hkept : Kept node node') :
    FileOk fs v owner node' := by
  have hslot : node'.slot fs = node.slot fs := by
    rw [Node.slot, Node.slot, hkept.dirCluster, hkept.dirIndex]
  obtain ⟨name, attr, cluster, size, size', hdisk, hdirent, hclean⟩ := h.same
  obtain ⟨size'', hdirent'⟩ := hkept.dirent name attr size' hdirent
  refine ⟨?_, ?_, ?_, ?_, name, attr, cluster, size, size'', ?_, hdirent', fun hdirty => ?_⟩
  · rw [hkept.dirCluster]
    exact h.owner
  · rw [hslot]
    exact h.listed
  · rw [hslot]
    exact h.entry
  · rw [hslot]
    exact h.file
  · rw [hslot]
    exact hdisk
  · obtain ⟨hclean', heq⟩ := hkept.clean hdirty
    rw [heq]
    exact hclean hclean'

namespace Mount

theorem isOpened_eq_true :
    s.isOpened fs c i = true ↔ ∃ n, s.Has n false ∧ (s.node n).slot fs = (c, i) := by
  rw [isOpened, decide_eq_true_iff]
  exact exists_congr fun n => and_assoc.symm

theorem NotOpen.isOpened (h : s.NotOpen fs c i) : s.isOpened fs c i = false := by
  rw [eq_false_iff]
  intro hopen
  obtain ⟨n, hn, hslot⟩ := isOpened_eq_true.mp hopen
  exact h n hn.1 hslot

theorem place_of_file (h : node.isDir = false) :
    node.place fs = ⟨.file, .slot (node.slot fs).1 (node.slot fs).2⟩ := by
  unfold Node.place
  rw [h]
  rfl

theorem place_of_dir (fs : Layout) (h : node.isDir = true) : (node.place fs).kind = .dir := by
  unfold Node.place
  rw [h]
  rfl

theorem place_via (node : Node) (d : Nat) : (node.place fs).via ≠ .next d := by
  unfold Node.place
  split
  · split <;> exact fun h => by cases h
  · exact fun h => by cases h

theorem slot_of_place (h : (node.place fs).via = .slot c i) : node.slot fs = (c, i) := by
  unfold Node.place at h
  cases hdir : node.isDir
  · rw [if_neg (by simp [hdir])] at h
    obtain ⟨hc, hi⟩ := Via.slot.inj h
    exact Prod.ext hc hi
  rw [if_pos hdir] at h
  split at h
  · cases h
  · obtain ⟨hc, hi⟩ := Via.slot.inj h
    exact Prod.ext hc hi

namespace Coherent

section

variable (h : s.Coherent fs owner)
include h

/-- The first cluster of a node has the place of the node. -/
theorem owner_first (hn : n ∈ s.addrs) (hne : (s.node n).firstCluster ≠ 0) :
    owner (s.node n).firstCluster = some ((s.node n).place fs) :=
  h.owned.labels.root _ _ (.inr ⟨n, hn, rfl, rfl, hne⟩)

theorem isDirCluster (hn : s.Has n true) : IsDirCluster owner (s.node n).firstCluster := by
  by_cases hne : (s.node n).firstCluster = 0
  · exact .inl hne
  · exact .inr ⟨_, h.owner_first hn.1 hne, place_of_dir fs hn.2⟩

/-- The nodes of files that are left are for the same slots. -/
theorem change {s' : Mount} (hown : Owned fs s'.vol (s'.roots fs) (s'.isOpened fs) owner')
    (hfiles : ∀ n, s'.Has n false → s.Has n false ∧ (s'.node n).slot fs = (s.node n).slot fs ∧
      FileOk fs s'.vol owner' (s'.node n)) : s'.Coherent fs owner' := by
  refine ⟨hown, fun n hn => (hfiles n hn).2.2, fun n m hn hm hslot => ?_⟩
  obtain ⟨hn, hn', -⟩ := hfiles n hn
  obtain ⟨hm, hm', -⟩ := hfiles m hm
  exact h.distinct n m hn hm (hn' ▸ hm' ▸ hslot)

theorem setVol (hown : Owned fs v' (s.roots fs) (s.isOpened fs) owner')
    (hfiles : ∀ n, s.Has n false → FileOk fs v' owner' (s.node n)) :
    ({ s with vol := v' } : Mount).Coherent fs owner' :=
  ⟨hown, hfiles, h.distinct⟩

end

section Update

variable (hn : s.Has n false) (hsame : SamePlace (s.node n) node')

include hsame

theorem slot_update (m : Nat) : ((s.update v' n node').node m).slot fs = (s.node m).slot fs := by
  simp only [update]
  by_cases hm : m = n
  · subst hm
    rw [update_self, Node.slot, Node.slot, hsame.dirCluster, hsame.dirIndex]
  · rw [update_of_ne hm]

theorem has_update (m : Nat) (isDir : Bool) :
    (s.update v' n node').Has m isDir ↔ s.Has m isDir := by
  unfold Has update
  by_cases hm : m = n
  · subst hm
    simp [hsame.isDir]
  · simp [update_of_ne hm]

theorem isOpened_update : (s.update v' n node').isOpened fs = s.isOpened fs := by
  funext c i
  rw [Bool.eq_iff_iff, isOpened_eq_true, isOpened_eq_true]
  simp [has_update hsame, slot_update hsame]

include hn

/-- The pointers after a call that changes one node of a file. -/
theorem roots_update {q} (hroot : (s.update v' n node').roots fs q b) :
    s.rootsBut fs n q b ∨ (q = (s.node n).place fs ∧ b = node'.firstCluster ∧ b ≠ 0) := by
  rcases hroot with hroot | ⟨m, hm, hq, hb, hne⟩
  · exact .inl (.inl hroot)
  by_cases hmn : m = n
  · subst hmn
    have hfile : ((s.update v' m node').node m).isDir = false :=
      ((has_update hsame m false).mpr hn).2
    rw [place_of_file hfile, slot_update hsame, ← place_of_file hn.2] at hq
    simp only [update, update_self] at hb
    exact .inr ⟨hq, hb, hne⟩
  · simp only [update, update_of_ne hmn] at hq hb
    exact .inl (.inr ⟨m, hm, hmn, hq, hb, hne⟩)

end Update

/-- A call changes one node of a file, and leaves directories as they are. -/
theorem update (h : s.Coherent fs owner) (hkept : Kept (s.node n) node')
    (hown : Owned fs v' ((s.update v' n node').roots fs) (s.isOpened fs) owner')
    (hdirs : ∀ b p, owner b = some p → p.kind = .dir →
      owner' b = some p ∧ v'.dirs b = s.vol.dirs b) : (s.update v' n node').Coherent fs owner' := by
  have hsame := hkept.toSamePlace
  refine h.change ?_ fun m hm => ?_
  · rw [isOpened_update hsame]
    exact hown
  have hm := (has_update hsame m false).mp hm
  have hok := (h.files m hm).of_dirs hdirs
  refine ⟨hm, slot_update hsame m, ?_⟩
  by_cases hmn : m = n
  · subst hmn
    simp only [Mount.update, update_self]
    exact hok.kept hkept
  · simp only [Mount.update, update_of_ne hmn]
    exact hok

section

variable (h : s.Coherent fs owner) (hn : s.Has n false)
include h hn

/-- Nothing else points to the first cluster of a file. -/
theorem not_rootsBut (hne : (s.node n).firstCluster ≠ 0) (q : Place) :
    ¬ s.rootsBut fs n q (s.node n).firstCluster := by
  intro hroot
  have hfirst := h.owner_first hn.1 hne
  have hq := h.owned.labels.root _ _ (roots_of_rootsBut hroot)
  rw [hfirst, place_of_file hn.2] at hq
  cases hq
  rcases hroot with ⟨hq, -⟩ | ⟨m, hm, hmn, hq, -⟩
  · cases hq
  cases hdir : (s.node m).isDir
  · rw [place_of_file hdir] at hq
    obtain ⟨hc, hi⟩ := Via.slot.inj (Place.mk.inj hq).2
    exact hmn (h.distinct m n ⟨hm, hdir⟩ hn (Prod.ext hc.symm hi.symm))
  · have hkind := place_of_dir fs hdir
    rw [← hq] at hkind
    cases hkind

/-! ### Calls on files -/

theorem write (hwrite : fileWrite fs s.vol (s.node n) src size offset = some (ret, v', node')) :
    ∃ owner', (s.update v' n node').Coherent fs owner' := by
  have hkind : ((s.node n).place fs).kind = .file := by rw [place_of_file hn.2]
  obtain ⟨owner', hgr, hkept⟩ := fileWrite_spec (h.owner_first hn.1) h.owned hkind
    (place_via (s.node n)) hwrite
  refine ⟨owner', h.update hkept (hgr.owned.mono fun q b hq => ?_) fun b p hb hp =>
    ⟨hgr.keeps b p hb, hgr.dirs b p hb hp⟩⟩
  rcases roots_update hn hkept.toSamePlace hq with hq | ⟨hq, hb, hne⟩
  · exact .inl (roots_of_rootsBut hq)
  · exact .inr ⟨hq, hb, hb ▸ hne⟩

theorem truncate (htrunc : fileTruncate fs s.vol (s.node n) size = some (ret, v', node')) :
    ∃ owner', (s.update v' n node').Coherent fs owner' := by
  have hopen : s.isOpened fs ((s.node n).slot fs).1 ((s.node n).slot fs).2 = true :=
    isOpened_eq_true.mpr ⟨n, hn, rfl⟩
  have hfirst : (s.node n).firstCluster ≠ 0 → owner (s.node n).firstCluster =
      some ⟨.file, .slot ((s.node n).slot fs).1 ((s.node n).slot fs).2⟩ := by
    intro hne
    rw [← place_of_file hn.2]
    exact h.owner_first hn.1 hne
  obtain ⟨hkept, hclus⟩ := fileTruncate_cases htrunc
  have hsub : ∀ q b, (s.update v' n node').roots fs q b → s.roots fs q b := by
    intro q b hq
    rcases roots_update hn hkept.toSamePlace hq with hq | ⟨hq, hb, hne⟩
    · exact roots_of_rootsBut hq
    · rcases hclus with ⟨hsame, -⟩ | ⟨hzero, -⟩
      · exact .inr ⟨n, hn.1, hq, hb.trans hsame, hne⟩
      · exact absurd (hb.trans hzero) hne
  have hgone : (s.node n).firstCluster ≠ 0 → node'.firstCluster = 0 →
      ∀ q, ¬ (s.update v' n node').roots fs q (s.node n).firstCluster := by
    intro hne hzero q hq
    rcases roots_update hn hkept.toSamePlace hq with hq | ⟨-, hb, -⟩
    · exact h.not_rootsBut hn hne q hq
    · exact hne (hb.trans hzero)
  obtain ⟨owner', hown, hdirs, hkeep⟩ := fileTruncate_spec htrunc h.owned hopen hfirst hsub hgone
  exact ⟨owner', h.update hkept hown fun b p hb hp => ⟨hkeep b p hb hp, by rw [hdirs]⟩⟩

/-- Closing writes the entry of the node to its slot. -/
theorem close :
    (s.update (fileClose fs s.vol (s.node n)).1 n (fileClose fs s.vol (s.node n)).2).Coherent fs
      owner := by
  have hok := h.files n hn
  have hopen : s.isOpened fs ((s.node n).slot fs).1 ((s.node n).slot fs).2 = true :=
    isOpened_eq_true.mpr ⟨n, hn, rfl⟩
  unfold fileClose
  split
  case isFalse =>
    have hsame : s.update s.vol n (s.node n) = s := by
      simp [Mount.update]
    rw [hsame]
    exact h
  case isTrue hdirty =>
  obtain ⟨name, attr, cluster, size, size', hdisk, hdirent, -⟩ := hok.same
  have hdir := hok.file
  -- The new entry differs from the old one in its cluster and its size only.
  have hslots : ∀ b j, FromSlot (s.isOpened fs b j) (s.isOpened fs b j) (s.vol.dirs b j)
      ((s.vol.setDirent ((s.node n).slot fs).1 ((s.node n).slot fs).2 (s.node n).dirent).dirs
        b j) := by
    intro b j
    rw [setDirent_dirs]
    split
    case isFalse => exact .of_eq rfl
    case isTrue heq =>
    obtain ⟨rfl, rfl⟩ := heq
    rw [hdisk] at hdir ⊢
    rw [hdirent, hopen]
    refine ⟨Iff.rfl, fun _ hcnts => ?_⟩
    rcases hcnts with hcnts | hcnts
    · exact absurd (hdir.symm.trans hcnts) (by decide)
    · cases hcnts
  have hplace : SamePlace (s.node n) { s.node n with dirty := false } := ⟨rfl, rfl, rfl⟩
  have hlst : ∀ b j, Listed fs (s.vol.setDirent ((s.node n).slot fs).1
      ((s.node n).slot fs).2 (s.node n).dirent) b j ↔ Listed fs s.vol b j :=
    fun b _ => listed_congr fun i => (hslots b i).ends
  refine h.change ?_ fun m hm => ?_
  · rw [isOpened_update hplace]
    refine h.owned.frame (fun q b hq => ?_) (fun _ _ _ => .inl rfl) (fun b _ j _ _ => hslots b j)
      h.owned.limit
    rcases roots_update hn hplace hq with hq | ⟨hq, hb, hne⟩
    · exact roots_of_rootsBut hq
    · exact .inr ⟨n, hn.1, hq, hb, hne⟩
  have hm := (has_update hplace m false).mp hm
  refine ⟨hm, slot_update hplace m, ?_⟩
  by_cases hmn : m = n
  · subst hmn
    simp only [Mount.update, update_self]
    have hnew : (s.vol.setDirent ((s.node m).slot fs).1 ((s.node m).slot fs).2
        (s.node m).dirent).dirs ((s.node m).slot fs).1 ((s.node m).slot fs).2 =
          .short name attr (s.node m).firstCluster size' := by
      rw [setDirent_dirs, if_pos ⟨rfl, rfl⟩, hdirent]
    have hent := hok.entry
    have hfile := hok.file
    rw [hdisk] at hent hfile
    refine ⟨hok.owner, (hlst _ _).mpr hok.listed, ?_, ?_, name, attr,
      (s.node m).firstCluster, size', size', hnew, hdirent, fun _ => rfl⟩
    · exact hnew ▸ hent
    · exact hnew ▸ hfile
  simp only [Mount.update, update_of_ne hmn]
  refine (h.files m hm).congr (fun _ hq _ => hq) ?_ ((hlst _ _).mpr (h.files m hm).listed)
  refine (setDirent_dirs _ _ _ _ _ _).trans (if_neg fun heq => ?_)
  exact hmn (h.distinct m n hm hn (Prod.ext heq.1 heq.2))

end

/-! ### Nodes come and go -/

/-- The slot that a lookup in a directory finds. -/
theorem find_slot (h : s.Coherent fs owner) (hn : s.Has n true)
    (hfind : findInDir fs s.vol (s.node n).firstCluster name = some (some t))
    (hdot : t.entry.isDot = false) :
    (∃ p, owner t.cluster = some p ∧ p.kind = .dir) ∧ Listed fs s.vol t.cluster (t.pos fs) ∧
      t.entry = s.vol.dirs t.cluster (t.pos fs) ∧ t.entry.IsEntry := by
  obtain ⟨hmem, hfree, hlong, hlabel⟩ := findInDir_spec hfind
  obtain ⟨hlst, heq⟩ := mem_dirSlots (dvd_zero _) hmem
  refine ⟨?_, hlst, heq, hfree, hlong, hlabel, hdot⟩
  rcases h.isDirCluster hn with hzero | ⟨p, hp, hdir⟩
  · -- A directory without a cluster has no slots.
    rw [hzero, show clusterLimit = (2 ^ 28 - 1) + 1 from rfl, dirSlots,
      if_pos not_isValid_zero] at hmem
    cases hmem
  · exact mem_dirSlots_owner h.owned hp hdir hmem

/-- The first cluster of an entry that counts has the place of the entry. -/
theorem owner_entry (h : Owned fs v R opened owner) (hc : owner c = some p) (hp : p.kind = .dir)
    (hlst : Listed fs v c i) (hcnts : Counts opened v c i) (hne : (v.dirs c i).cluster ≠ 0) :
    owner (v.dirs c i).cluster = some ⟨(v.dirs c i).kind, .slot c i⟩ :=
  (((h.placed hc).slots hp i hlst hcnts).resolve_left hne).2

/-- A lookup makes a node for the entry that it finds. -/
theorem lookup (h : s.Coherent fs owner) {m} (hn : s.Has n true) (hm : m ∉ s.addrs)
    (hfind : findInDir fs s.vol (s.node n).firstCluster name = some (some t))
    (hdot : t.entry.isDot = false)
    (hone : t.entry.isDir = false → s.isOpened fs t.cluster (t.pos fs) = false) :
    ({ s with addrs := insert m s.addrs, node := Function.update s.node m (createNode t) } :
      Mount).Coherent fs owner := by
  obtain ⟨⟨p, hp, hdir⟩, hlst, hentry, hent⟩ := h.find_slot hn hfind hdot
  set s' : Mount := { s with
    addrs := insert m s.addrs, node := Function.update s.node m (createNode t) } with hs'
  have hold : ∀ k, k ∈ s.addrs → k ∈ s'.addrs ∧ s'.node k = s.node k := by
    intro k hk
    refine ⟨mem_insert_of_mem hk, update_of_ne ?_ _ _⟩
    rintro rfl
    exact hm hk
  have hcases : ∀ k, k ∈ s'.addrs → (k ∈ s.addrs ∧ s'.node k = s.node k) ∨
      (k = m ∧ s'.node k = createNode t) := by
    intro k hk
    rcases mem_insert.mp hk with rfl | hk
    · exact .inr ⟨rfl, update_self _ _ _⟩
    · exact .inl ⟨hk, (hold k hk).2⟩
  have hslot : (createNode t).slot fs = (t.cluster, t.pos fs) := rfl
  have hval := (h.owned.valid _ p hp).1
  have hplace : (createNode t).place fs = ⟨t.entry.kind, .slot t.cluster (t.pos fs)⟩ := by
    unfold Node.place Dirent.kind
    cases hd : t.entry.isDir
    · rw [if_neg (by simp [createNode, hd]), hslot]
      rfl
    · rw [if_pos (by simp [createNode, hd]), hslot,
        if_neg (show (createNode t).dirCluster ≠ 0 from hval.ne_zero)]
      rfl
  have hopened : ∀ c i, s'.isOpened fs c i = false → s.isOpened fs c i = false := by
    intro c i hnot
    rw [eq_false_iff] at hnot ⊢
    intro hopen
    obtain ⟨k, hk, hkslot⟩ := isOpened_eq_true.mp hopen
    obtain ⟨hk', heq⟩ := hold k hk.1
    exact hnot (isOpened_eq_true.mpr ⟨k, ⟨hk', heq ▸ hk.2⟩, heq ▸ hkslot⟩)
  have hcnts : Counts (s.isOpened fs) s.vol t.cluster (t.pos fs) := by
    refine ⟨hentry ▸ hent, ?_⟩
    rw [← hentry]
    cases hd : t.entry.isDir
    · exact .inr (hone hd)
    · exact .inl rfl
  refine ⟨?_, fun k hk => ?_, fun k k' hk hk' heq => ?_⟩
  · -- The pointer of the slot becomes one of the node.
    have hframe : Owned fs s.vol (s.roots fs) (s'.isOpened fs) owner :=
      h.owned.frame (fun _ _ hq => hq) (fun _ _ _ => .inl rfl)
        (fun b _ j _ _ => ⟨Iff.rfl, fun he ho =>
          .inr ⟨he, ho.imp_right (hopened b j), rfl, rfl⟩⟩) h.owned.limit
    have hroot : Owned fs s.vol (rootAt (s.roots fs) ((createNode t).place fs) t.entry.cluster)
        (s'.isOpened fs) owner := by
      refine hframe.rootAt (fun hne => ?_) (place_via (createNode t))
      rw [hplace, hentry]
      refine owner_entry h.owned hp hdir hlst hcnts ?_
      rw [← hentry]
      exact hne
    refine hroot.mono fun q b hq => ?_
    rcases hq with hq | ⟨k, hk, hq, hb, hne⟩
    · exact .inl (.inl hq)
    obtain ⟨hk, heq⟩ | ⟨rfl, heq⟩ := hcases k hk <;> rw [heq] at hq hb
    · exact .inl (.inr ⟨k, hk, hq, hb, hne⟩)
    · exact .inr ⟨hq, hb, fun hzero => hne (hb.trans hzero)⟩
  · obtain ⟨hkmem, hknode⟩ := hk
    obtain ⟨hk, heq⟩ | ⟨rfl, heq⟩ := hcases k hkmem <;> rw [heq] at hknode ⊢
    · exact h.files k ⟨hk, hknode⟩
    have hfile : t.entry.isDir = false := hknode
    obtain ⟨name', attr, cluster, size, hshort⟩ :
        ∃ name attr cluster size, t.entry = .short name attr cluster size := by
      cases hte : t.entry with
      | short name attr cluster size => exact ⟨name, attr, cluster, size, rfl⟩
      | long order checksum chars =>
        rw [hte] at hent
        cases hent.2.1
    refine ⟨⟨p, hp, hdir⟩, hlst, ?_, ?_, name', attr, cluster, size, size, ?_, ?_, fun _ => ?_⟩
    · exact hentry ▸ hent
    · exact hentry ▸ hfile
    · exact hentry.symm.trans hshort
    · simp [createNode, hshort, Dirent.cluster]
    · simp [createNode, hshort, Dirent.cluster]
  obtain ⟨hkmem, hknode⟩ := hk
  obtain ⟨hkmem', hknode'⟩ := hk'
  have hnew : ∀ j, j ∈ s.addrs → (s.node j).isDir = false → t.entry.isDir = false →
      (s.node j).slot fs = (createNode t).slot fs → False := by
    intro j hj hfile hfile' heq
    have hopen := isOpened_eq_true.mpr ⟨j, ⟨hj, hfile⟩, heq⟩
    exact absurd (hopen.symm.trans (hone hfile')) (by decide)
  obtain ⟨hk, hkeq⟩ | ⟨rfl, hkeq⟩ := hcases k hkmem <;>
    obtain ⟨hk', hkeq'⟩ | ⟨rfl, hkeq'⟩ := hcases k' hkmem' <;>
    simp only [hkeq, hkeq'] at hknode hknode' heq
  · exact h.distinct k k' ⟨hk, hknode⟩ ⟨hk', hknode'⟩ heq
  · exact (hnew k hk hknode hknode' heq).elim
  · exact (hnew k' hk' hknode' hknode heq.symm).elim
  · rfl

/-- A node that is not dirty is released. -/
theorem free (h : s.Coherent fs owner) (hn : n ∈ s.addrs)
    (hclean : (s.node n).isDir = false → (s.node n).dirty = false) :
    ({ s with addrs := s.addrs.erase n } : Mount).Coherent fs owner := by
  set s' : Mount := { s with addrs := s.addrs.erase n } with hs'
  have hhas : ∀ m isDir, s'.Has m isDir → s.Has m isDir :=
    fun m isDir hm => ⟨mem_of_mem_erase hm.1, hm.2⟩
  have hroots : ∀ q b, s'.roots fs q b → s.roots fs q b := by
    intro q b hq
    exact hq.imp_right fun ⟨m, hm, hrest⟩ => ⟨m, mem_of_mem_erase hm, hrest⟩
  -- Only the slot of the node may count that did not count before.
  have hopened : ∀ c i, s'.isOpened fs c i = false → s.isOpened fs c i = false ∨
      ((s.node n).isDir = false ∧ (s.node n).slot fs = (c, i)) := by
    intro c i hnot
    cases hopen : s.isOpened fs c i
    · exact .inl rfl
    obtain ⟨m, hm, hslot⟩ := isOpened_eq_true.mp hopen
    by_cases hmn : m = n
    · exact .inr ⟨hmn ▸ hm.2, hmn ▸ hslot⟩
    · have hm' : s'.Has m false := ⟨mem_erase.mpr ⟨hmn, hm.1⟩, hm.2⟩
      rw [isOpened_eq_true.mpr ⟨m, hm', hslot⟩] at hnot
      cases hnot
  refine h.change (.of_placed (fun q b hq => ⟨h.owned.labels.root q b (hroots q b hq),
      (h.owned.heads q b · (hroots q b hq))⟩)
    (fun b p hb => (h.owned.placed hb).change (.inl rfl) (fun hp i => ?_) fun _ _ hc _ => hc)
    h.owned.limit) fun m hm => ⟨hhas m false hm, rfl, h.files m (hhas m false hm)⟩
  by_cases hslot : (s.node n).isDir = false ∧ (s.node n).slot fs = (b, i)
  · -- The entry says again where the file starts.
    obtain ⟨hfile, hslot⟩ := hslot
    obtain ⟨name, attr, cluster, size, size', hdisk, -, hsame⟩ := (h.files n ⟨hn, hfile⟩).same
    have hkind := (h.files n ⟨hn, hfile⟩).file
    rw [hslot] at hdisk hkind
    have hclus : (s.vol.dirs b i).cluster = (s.node n).firstCluster := by
      rw [hdisk]
      exact hsame (hclean hfile)
    by_cases hne : (s.node n).firstCluster = 0
    · exact .inl ⟨Iff.rfl, fun _ _ => .inl (hclus.trans hne)⟩
    have howner := h.owner_first hn hne
    refine .inr ⟨Iff.rfl, ?_, ?_⟩
    · rw [hclus]
      exact (h.owned.valid _ _ howner).1
    · rw [hclus, howner, place_of_file hfile, hslot, Dirent.kind, hkind]
      rfl
  · exact .inl ⟨Iff.rfl, fun he ho =>
      .inr ⟨he, ho.imp_right fun hnot => (hopened b i hnot).resolve_right hslot, rfl, rfl⟩⟩

/-! ### Calls on directories -/

section

variable (h : s.Coherent fs owner)
include h

/-- An entry without a cluster is added. -/
theorem added {d} (hgr : Grown fs (s.roots fs) (s.isOpened fs) s.vol owner v1 owner')
    (hadded : Added fs owner' v1 v' d) (hfirst : d.first ≠ direntEnd)
    (hown : Owned fs v' (s.roots fs) (s.isOpened fs) owner'')
    (hkeeps : ∀ b p, owner' b = some p → owner'' b = some p) :
    ({ s with vol := v' } : Mount).Coherent fs owner'' := by
  refine h.setVol hown fun n hn => ?_
  have hok : FileOk fs v1 owner' (s.node n) := (h.files n hn).of_dirs fun b p hb hp =>
    ⟨hgr.keeps b p hb, hgr.dirs b p hb hp⟩
  refine hok.congr (fun p hp _ => hkeeps _ p hp) (hadded.keeps hok.entry.1) ?_
  exact (listed_congr (hadded.sameEnds hfirst _)).mpr hok.listed

theorem create (hn : s.Has n true) (hfirst : AddsInFirst fs s.vol (s.node n).firstCluster name)
    (hcr : dirCreate fs s.vol (s.node n) name = some (ret, v')) :
    ∃ owner', ({ s with vol := v' } : Mount).Coherent fs owner' := by
  unfold dirCreate at hcr
  split at hcr
  · cases hcr
    exact ⟨owner, h⟩
  split at hcr
  · cases hcr
  · cases hcr
    exact ⟨owner, h⟩
  obtain ⟨-, owner1, hgr⟩ | ⟨-, x, xs, hx, hadded⟩ :=
    addDirEntry_spec h.owned (h.isDirCluster hn) hfirst hcr
  · exact ⟨owner1, h.setVol hgr.owned fun m hm => (h.files m hm).of_dirs fun b p hb hp =>
      ⟨hgr.keeps b p hb, hgr.dirs b p hb hp⟩⟩
  refine ⟨owner, h.added (.refl h.owned) hadded (first_short_ne_end hx) ?_ fun _ _ hb => hb⟩
  refine h.owned.frame (fun _ _ hq => hq) (fun b _ _ => .inl (by rw [hadded.fat]))
    (fun b _ j _ _ => hadded.fromSlot (first_short_ne_end hx) rfl b j) fun c hc => ?_
  rw [hadded.fat]
  exact h.owned.limit c hc

theorem mkdir (hn : s.Has n true) (hfirst : AddsInFirst fs s.vol (s.node n).firstCluster name)
    (hmkdir : dirMkdir fs s.vol (s.node n) name = some (ret, v')) :
    ∃ owner', ({ s with vol := v' } : Mount).Coherent fs owner' := by
  unfold dirMkdir at hmkdir
  split at hmkdir
  · cases hmkdir
    exact ⟨owner, h⟩
  split at hmkdir
  · cases hmkdir
  · cases hmkdir
    exact ⟨owner, h⟩
  split at hmkdir
  · cases hmkdir
  case h_2 new v0 halloc =>
  obtain ⟨rfl, rfl⟩ | halloc := allocCluster_spec halloc
  · cases hmkdir
    exact ⟨owner, h⟩
  rw [if_neg (halloc.isValid h.owned.limit).ne_zero] at hmkdir
  simp only at hmkdir
  have hfill := h.owned.grown_fill halloc (dotEntries new (s.node n).firstCluster)
  obtain ⟨-, hfresh⟩ := h.owned.alloc halloc
  -- The parent is not changed by this.
  have hfat : ∀ b p, owner b = some p → v0.fat b = s.vol.fat b := fun b p hb =>
    halloc.fat_of_ne (ne_of_label hb hfresh.owner)
  have hslots := h.owned.dirSlots_eq clusterLimit 0 hfill.dirs (fun b p hb => .inl (hfat b p hb))
    (h.isDirCluster hn)
  have hfirst := hfirst.congr (Prod.ext hslots.1 (hslots.2 hfat))
  generalize hv1 : v0.writeCluster new (dotEntries new (s.node n).firstCluster) = v1
    at hmkdir hfirst hfill
  have hdots : v1.dirs new = dotEntries new (s.node n).firstCluster := by
    rw [← hv1]
    exact update_self _ _ _
  have hused : v1.fat new = eoc := by
    rw [← hv1]
    exact halloc.fat_self
  split at hmkdir
  · cases hmkdir
  case h_2 ret' v2 hadd =>
  obtain ⟨hbad, owner3, hgr⟩ | ⟨rfl, x, xs, hx, hadded⟩ :=
    addDirEntry_spec hfill.owned (h.isDirCluster hn) hfirst hadd
  · have hall := hfill.trans hgr
    -- The new directory is left alone while its parent grows.
    obtain ⟨hnone, hfat, hdirs⟩ := hgr.others new hfresh.owner (by rw [hused]; decide)
    rw [if_pos hbad] at hmkdir
    obtain ⟨v4, hfree, ⟨⟩⟩ := Option.map_eq_some_iff.mp hmkdir
    have hchain : Linked v2.fat IsValid new [new] eoc := by
      refine .cons hfresh.valid ?_
      rw [hfat, hused]
      exact .nil (not_isValid_of_eocMin_le (by decide))
    obtain ⟨hfat', hdirs'⟩ := freeChain_spec hchain hfree
    have hother : ∀ b, b ≠ new → v'.fat b = v2.fat b := by
      intro b hb
      rw [hfat' b, if_neg (by simpa using hb)]
    refine ⟨owner3, h.setVol (hall.owned.frame (fun _ _ hq => hq)
      (fun b p hb => .inl (hother b (ne_of_label hb hnone)))
      (fun b p j _ _ => .of_eq (by rw [hdirs']))
      fun c hc => ?_) fun m hm => (h.files m hm).of_dirs fun b p hb hp => ⟨hall.keeps b p hb, ?_⟩⟩
    · rw [hother c fun heq => absurd (heq ▸ hfresh.valid.2) (not_lt.mpr hc)]
      exact hall.owned.limit c hc
    · rw [hdirs']
      exact hall.dirs b p hb hp
  cases hmkdir
  have hfirst' : (Dirent.short (x :: xs) attrDirectory new 0).first ≠ direntEnd :=
    first_short_ne_end hx
  obtain ⟨c, i, p, -, -, -, -, hfat', hentry, hoth⟩ := id hadded
  have hends := hadded.sameEnds hfirst'
  have hnewdirs : ∀ j, v'.dirs new j = dotEntries new (s.node n).firstCluster j := by
    intro j
    rw [← hdots]
    refine hadded.keeps ?_
    rw [hdots]
    exact first_dotEntries_ne _ _ j
  refine ⟨_, h.added hfill hadded hfirst' (hfill.owned.addDir (i := i) ?_ ?_ (hends c)
    ⟨hfresh.owner, hfresh.valid, ?_⟩ (fun j hj => ?_) (fun b q _ => by rw [hfat'])
    (fun b q j _ _ hne' => ?_) fun d hd => ?_) fun b q hb => update_of_label hfresh.owner hb _⟩
  · rw [hentry]
    rfl
  · rw [hentry]
    rfl
  · rw [hfat', hused]
    decide
  · rw [hnewdirs]
    have hend := hj.first_ne
    rw [hnewdirs] at hend
    exact not_isEntry_dotEntries hend
  · obtain hsame | ⟨hold, hlong, hend⟩ := hoth b j hne'
    · exact .of_eq hsame
    · refine .of_not_isEntry (hends b j) fun hent => ?_
      rw [hent.2.1] at hlong
      cases hlong
  · rw [hfat']
    exact hfill.owned.limit d hd

/-- An entry is removed and its chain freed, when no node is for it. -/
theorem remove (hn : s.Has n true)
    (hfind : findInDir fs s.vol (s.node n).firstCluster name = some (some t))
    (hsafe : t.entry.isDot = false ∧ s.NotOpen fs t.cluster (t.pos fs))
    (hfree : freeChain clusterLimit s.vol t.entry.cluster = some v1)
    (hrem : removeDirEntry fs v1 (s.node n).firstCluster t.cluster t.index = some (ret, v'))
    (hfiles : ∀ cs e, Linked s.vol.fat IsValid t.entry.cluster cs e →
      (t.entry.cluster ≠ 0 →
        owner t.entry.cluster = some ⟨t.entry.kind, .slot t.cluster (t.pos fs)⟩) →
      ∀ m, s.Has m false → (s.node m).dirCluster ∉ cs) :
    ∃ owner', ({ s with vol := v' } : Mount).Coherent fs owner' := by
  obtain ⟨hdot, hnot⟩ := hsafe
  obtain ⟨⟨p, hc, hp⟩, hlst, hentry, hent⟩ := h.find_slot hn hfind hdot
  have hrem := removeDirEntry_spec hrem
  have hfirst (hne : t.entry.cluster ≠ 0) :
      owner t.entry.cluster = some ⟨t.entry.kind, .slot t.cluster (t.pos fs)⟩ := by
    rw [hentry] at hne ⊢
    exact owner_entry h.owned hc hp hlst ⟨hentry ▸ hent, .inr hnot.isOpened⟩ hne
  obtain ⟨cs, e, hchain⟩ : ∃ cs e, Linked s.vol.fat IsValid t.entry.cluster cs e := by
    by_cases hzero : t.entry.cluster = 0
    · rw [hzero]
      exact ⟨[], 0, .nil not_isValid_zero⟩
    · exact h.owned.exists_chain (hfirst hzero) fun d hd => by cases hd
  obtain ⟨hfat, hdirs⟩ := freeChain_spec hchain hfree
  have hlisted' : Listed fs v1 t.cluster (t.pos fs) := by rwa [Listed, hdirs]
  have hslots : ∀ b j, FromSlot (s.isOpened fs b j) (s.isOpened fs b j) (s.vol.dirs b j)
      (v'.dirs b j) := by
    intro b j
    rw [← hdirs]
    exact hrem.fromSlot hlisted' b j
  have hgone : ¬ (v'.dirs t.cluster (t.pos fs)).IsEntry := by
    rw [Slot.pos, hrem.slot]
    exact fun hentry' => hentry'.1 (first_markFree hlisted'.first_ne)
  have hfat' : ∀ b, b ∉ cs → v'.fat b = s.vol.fat b := by
    intro b hb
    rw [hrem.fat, hfat b, if_neg hb]
  have hown : Owned fs v' (s.roots fs) (s.isOpened fs) fun b =>
      if b ∈ cs then none else owner b := by
    by_cases hzero : t.entry.cluster = 0
    · -- An entry without a cluster has an empty chain.
      rw [hzero] at hchain
      obtain rfl := chain_zero hchain
      have hsame : ∀ b, v'.fat b = s.vol.fat b := fun b => hfat' b not_mem_nil
      refine h.owned.frame (fun _ _ hq => hq) (fun b _ _ => .inl (hsame b))
        (fun b _ j _ _ => hslots b j) fun d hd => ?_
      rw [hsame d]
      exact h.owned.limit d hd
    refine h.owned.drop (hfirst hzero) hchain hfat' (fun q b hq => ⟨hq, ?_⟩)
      (fun b _ j _ _ _ => hslots b j) fun b _ hunder => ?_
    · -- A pointer to the first cluster would be that of a node for the slot.
      rintro rfl
      have hplace := h.owned.labels.root q _ hq
      rw [hfirst hzero] at hplace
      cases hplace
      rcases hq with ⟨hq, -⟩ | ⟨n, hn, hq, -⟩
      · cases (Place.mk.inj hq).2
      · exact hnot n hn (slot_of_place (congrArg Place.via hq).symm)
    obtain ⟨⟨⟩, -⟩ | ⟨j, hslot, hcnts⟩ := hunder
    · cases (Place.mk.inj hslot).2
      exact hgone hcnts.1
  refine ⟨_, h.setVol hown fun n hn => ?_⟩
  have hok := h.files n hn
  refine hok.congr (fun q hq _ => ?_) ?_ ((listed_congr fun i => (hslots _ i).ends).mpr hok.listed)
  · rw [if_neg (hfiles cs e hchain hfirst n hn)]
    exact hq
  -- The slot of another file is neither the one removed nor part of a long name.
  rw [← hdirs]
  by_cases hclus : ((s.node n).slot fs).1 = t.cluster
  · have hindex : ((s.node n).slot fs).2 ≠ t.pos fs := fun hi => hnot n hn.1 (Prod.ext hclus hi)
    rw [hclus]
    refine (hrem.longs _ hindex).resolve_right ?_
    rintro ⟨-, hlong, -⟩
    have hnotlong := hok.entry.2.1
    rw [hclus, ← hdirs, hlong] at hnotlong
    cases hnotlong
  · rw [hrem.others _ hclus]

end

/-- In an empty directory no entry is in use. -/
theorem isEmptyDir_spec (hchain : Linked v.fat IsValid c cs e)
    (hemp : isEmptyDir fs v fuel c = some true) :
    ∀ d ∈ cs, ∀ j, Listed fs v d j → (v.dirs d j).inUse = false := by
  induction hchain generalizing fuel with
  | nil =>
    intro d hd
    cases hd
  | @cons c e cs hval hrest ih =>
    cases fuel with
    | zero => cases hemp
    | succ fuel =>
      rw [isEmptyDir, if_neg (not_not.mpr hval), getNext_of_valid hval] at hemp
      split at hemp
      · cases hemp
      case isFalse hnone =>
      intro d hd j hj
      rcases mem_cons.mp hd with rfl | hd
      · rw [eq_false_iff]
        intro hused
        refine hnone (any_eq_true.mpr ⟨⟨d, 0 + j, v.dirs d j⟩, ?_, hused⟩)
        exact mem_clusterSlots.mpr ⟨j, hj, rfl⟩
      · exact ih hemp d hd j hj

section

variable (h : s.Coherent fs owner) (hn : s.Has n true)
  (hsafe : ∀ t, findInDir fs s.vol (s.node n).firstCluster name = some (some t) →
    t.entry.isDot = false ∧ s.NotOpen fs t.cluster (t.pos fs))
include h hn hsafe

theorem unlink (hunl : dirUnlink fs s.vol (s.node n) name = some (ret, v')) :
    ∃ owner', ({ s with vol := v' } : Mount).Coherent fs owner' := by
  unfold dirUnlink at hunl
  split at hunl
  · cases hunl
    exact ⟨owner, h⟩
  split at hunl
  · cases hunl
  · cases hunl
    exact ⟨owner, h⟩
  case h_3 t hfind =>
  split at hunl
  · cases hunl
    exact ⟨owner, h⟩
  case isFalse hfile =>
  split at hunl
  · cases hunl
  case h_2 v1 hfree =>
  have hfree' : freeChain clusterLimit s.vol t.entry.cluster = some v1 := by
    split at hfree
    · exact hfree
    case isFalse hzero =>
    rw [not_not.mp hzero, ← hfree]
    exact if_neg not_isValid_zero
  refine h.remove hn hfind (hsafe t hfind) hfree' hunl fun cs e hchain hfirst m hm hmem => ?_
  -- Directories are not among the clusters of a file.
  have hzero : t.entry.cluster ≠ 0 := by
    intro hzero
    rw [hzero] at hchain
    obtain rfl := chain_zero hchain
    cases hmem
  have hfirst := hfirst hzero
  rw [Dirent.kind, eq_false_iff.mpr hfile] at hfirst
  obtain ⟨q, hq, hqfile⟩ := h.owned.chain_kind hfirst hchain hmem
  obtain ⟨q', hq', hqdir⟩ := (h.files m hm).owner
  rw [hq] at hq'
  cases hq'
  rw [hqfile.mpr rfl] at hqdir
  cases hqdir

theorem rmdir (hrmdir : dirRmdir fs s.vol (s.node n) name = some (ret, v')) :
    ∃ owner', ({ s with vol := v' } : Mount).Coherent fs owner' := by
  unfold dirRmdir at hrmdir
  split at hrmdir
  · cases hrmdir
    exact ⟨owner, h⟩
  split at hrmdir
  · cases hrmdir
  · cases hrmdir
    exact ⟨owner, h⟩
  case h_3 t hfind =>
  split at hrmdir
  · cases hrmdir
    exact ⟨owner, h⟩
  split at hrmdir
  · cases hrmdir
  · cases hrmdir
    exact ⟨owner, h⟩
  case h_3 hemp =>
  split at hrmdir
  · cases hrmdir
  case h_2 v1 hfree =>
  refine h.remove hn hfind (hsafe t hfind) hfree hrmdir fun cs e hchain _ m hm hmem => ?_
  -- A file with a node has an entry, so that its directory is not empty.
  have hok := h.files m hm
  have hunu := isEmptyDir_spec hchain hemp _ hmem _ hok.listed
  have hentry' := hok.entry
  simp only [Dirent.inUse, decide_eq_false_iff_not] at hunu
  exact hunu ⟨hentry'.1, hentry'.2.1, hentry'.2.2.2⟩

end

end Coherent

end Mount

end Kurios.Fat32
