import Kurios.Fat32.Mount

/-!
The clusters of a FAT32 volume over whole runs.

`Chains` says that the chain of every entry ends, and that no two entries share a cluster. It
is kept by every run of calls that are `Careful` (`chains_disjoint`). Without care it is not:
closing a file that has been removed while it was open writes its entry back
(`close_after_unlink`).
-/

namespace Kurios.Fat32

open Base Option List

variable {x : Via} {b c cluster : Nat} {p q : Place}
  {fs : Layout} {s s' : Mount} {v : Volume} {owner : Nat → Option Place}

/-! ### Calls -/

inductive Call where
  | lookup (parent : Nat) (name : List Nat) (n : Nat)
  | create (parent : Nat) (name : List Nat)
  | mkdir (parent : Nat) (name : List Nat)
  | write (n : Nat) (src : Nat → Nat → Dirent) (size offset : Nat)
  | truncate (n size : Nat)
  | unlink (parent : Nat) (name : List Nat)
  | rmdir (parent : Nat) (name : List Nat)
  | close (n : Nat)
  | free (n : Nat)

/-- The node of the root directory, as `fat32_mount` makes it. -/
def rootNode (fs : Layout) : Node where
  isDir := true
  size := 0
  firstCluster := fs.rootCluster
  dirCluster := 0
  dirIndex := 0
  dirent := .zero
  dirty := false

namespace Mount

/-- A call; undefined when it does not return or has no node of the right type. `lookup` puts
the node it makes at address `n`, which holds none; `free` is the release of the last
reference to a node. -/
def step (fs : Layout) (s : Mount) : Call → Option Mount
  | .lookup parent name n =>
    if s.Has parent true ∧ n ∉ s.addrs ∧ name ≠ [46] ∧ name ≠ [46, 46] then
      match dirFinddir fs s.vol (s.node parent) name with
      | none => none
      | some none => some s
      | some (some node) =>
        some { s with addrs := insert n s.addrs, node := Function.update s.node n node }
    else none
  | .create parent name =>
    if s.Has parent true then
      (dirCreate fs s.vol (s.node parent) name).map fun r => { s with vol := r.2 }
    else none
  | .mkdir parent name =>
    if s.Has parent true then
      (dirMkdir fs s.vol (s.node parent) name).map fun r => { s with vol := r.2 }
    else none
  | .write n src size offset =>
    if s.Has n false then
      (fileWrite fs s.vol (s.node n) src size offset).map fun r => s.update r.2.1 n r.2.2
    else none
  | .truncate n size =>
    if s.Has n false then
      (fileTruncate fs s.vol (s.node n) size).map fun r => s.update r.2.1 n r.2.2
    else none
  | .unlink parent name =>
    if s.Has parent true then
      (dirUnlink fs s.vol (s.node parent) name).map fun r => { s with vol := r.2 }
    else none
  | .rmdir parent name =>
    if s.Has parent true then
      (dirRmdir fs s.vol (s.node parent) name).map fun r => { s with vol := r.2 }
    else none
  | .close n =>
    if s.Has n false then
      some (s.update (fileClose fs s.vol (s.node n)).1 n (fileClose fs s.vol (s.node n)).2)
    else none
  | .free n => if n ∈ s.addrs then some { s with addrs := s.addrs.erase n } else none

/-- The entry that a removal finds is not `.` or `..`, and no node is for it. -/
def RemovesSafely (fs : Layout) (s : Mount) (parent : Nat) (name : List Nat) : Prop :=
  ∀ r ∈ findInDir fs s.vol (s.node parent).firstCluster name, ∀ t ∈ r,
    t.entry.isDot = false ∧ s.NotOpen fs t.cluster (t.pos fs)
deriving Decidable

/-- A file has one node at most; entries are added from the first cluster of a directory on;
nothing is removed that has a node; and the node of a file is closed before it is released. -/
def Careful (fs : Layout) (s : Mount) : Call → Prop
  | .lookup parent name _ =>
    ∀ r ∈ findInDir fs s.vol (s.node parent).firstCluster name, ∀ t ∈ r,
      t.entry.isDot = false ∧ (t.entry.isDir = false → s.isOpened fs t.cluster (t.pos fs) = false)
  | .create parent name | .mkdir parent name =>
    AddsInFirst fs s.vol (s.node parent).firstCluster name
  | .unlink parent name | .rmdir parent name => s.RemovesSafely fs parent name
  | .free n => (s.node n).isDir = false → (s.node n).dirty = false
  | .write .. | .truncate .. | .close .. => True

instance (fs : Layout) (s : Mount) (call : Call) : Decidable (s.Careful fs call) := by
  cases call <;> unfold Careful <;> infer_instance

/-- Every careful call keeps the invariant. -/
theorem Coherent.step (h : ∃ owner, s.Coherent fs owner) {call}
    (hcare : s.Careful fs call) (hstep : s.step fs call = some s') :
    ∃ owner, s'.Coherent fs owner := by
  obtain ⟨owner, h⟩ := h
  cases call with
  | lookup parent name n =>
    obtain ⟨⟨hpar, hn, -⟩, hstep⟩ := ite_none_right_eq_some.mp hstep
    unfold dirFinddir at hstep
    cases hfind : findInDir fs s.vol (s.node parent).firstCluster name with
    | none =>
      rw [hfind] at hstep
      cases hstep
    | some r =>
      rw [hfind] at hstep
      cases r with
      | none =>
        cases hstep
        exact ⟨owner, h⟩
      | some t =>
        cases hstep
        obtain ⟨hdot, hone⟩ := hcare _ hfind t rfl
        exact ⟨owner, h.lookup hpar hn hfind hdot hone⟩
  | create parent name =>
    obtain ⟨hpar, r, hcr, rfl⟩ := ite_map_eq_some hstep
    exact h.create hpar hcare hcr
  | mkdir parent name =>
    obtain ⟨hpar, r, hmkdir, rfl⟩ := ite_map_eq_some hstep
    exact h.mkdir hpar hcare hmkdir
  | write n src size offset =>
    obtain ⟨hn, r, hwrite, rfl⟩ := ite_map_eq_some hstep
    exact h.write hn hwrite
  | truncate n size =>
    obtain ⟨hn, r, htrunc, rfl⟩ := ite_map_eq_some hstep
    exact h.truncate hn htrunc
  | unlink parent name =>
    obtain ⟨hpar, r, hunl, rfl⟩ := ite_map_eq_some hstep
    exact h.unlink hpar (fun t hfind => hcare _ hfind t rfl) hunl
  | rmdir parent name =>
    obtain ⟨hpar, r, hrmdir, rfl⟩ := ite_map_eq_some hstep
    exact h.rmdir hpar (fun t hfind => hcare _ hfind t rfl) hrmdir
  | close n =>
    obtain ⟨hn, rfl⟩ := ite_eq_some hstep
    exact ⟨owner, h.close hn⟩
  | free n =>
    obtain ⟨hn, rfl⟩ := ite_eq_some hstep
    exact ⟨owner, h.free hn hcare⟩

/-! ### The chains of entries -/

section

variable (fs : Layout) (s : Mount)

/-- Cluster `b` is reached at place `p`. -/
def Reach : Place → Nat → Prop :=
  Reaches (s.roots fs) (link fs s.vol (s.isOpened fs)) Place.child

/-- Where the file or directory of slot `i` of cluster `c` starts: for a file with a node, as
the node says. -/
def First (c i cluster : Nat) : Prop :=
  ((s.vol.dirs c i).isDir = false ∧
    ∃ n, s.Has n false ∧ (s.node n).slot fs = (c, i) ∧ cluster = (s.node n).firstCluster) ∨
  (((s.vol.dirs c i).isDir = true ∨ s.isOpened fs c i = false) ∧ cluster = (s.vol.dirs c i).cluster)

/-- The root directory, or an entry of a directory that is reached, starts with `cluster`. -/
def Starts (x : Via) (cluster : Nat) : Prop :=
  (x = .root ∧ cluster = fs.rootCluster) ∨
    ∃ c i p, x = .slot c i ∧ s.Reach fs p c ∧ p.kind = .dir ∧ Listed fs s.vol c i ∧
      (s.vol.dirs c i).IsEntry ∧ s.First fs c i cluster

/-- The chain of every entry has no cycle, ends with a mark and consists of clusters in use;
chains of different entries have no cluster in common. -/
structure Chains : Prop where
  ends : ∀ x cluster, s.Starts fs x cluster → ∃ cs e, Linked s.vol.fat IsValid cluster cs e ∧
    (cluster = 0 ∨ (IsValid cluster ∧ eocMin ≤ e)) ∧ cs.Nodup ∧ ∀ c ∈ cs, s.vol.fat c ≠ freeMark
  disjoint : ∀ x y cluster cluster' cs cs' e e', s.Starts fs x cluster → s.Starts fs y cluster' →
    x ≠ y → Linked s.vol.fat IsValid cluster cs e → Linked s.vol.fat IsValid cluster' cs' e' →
      ∀ c ∈ cs, c ∉ cs'

end

section

variable (h : s.Coherent fs owner)
include h

theorem Coherent.starts_owner (hx : s.Starts fs x cluster) (hne : cluster ≠ 0) :
    ∃ k, owner cluster = some ⟨k, x⟩ ∧ ∀ d, x ≠ .next d := by
  rcases hx with ⟨rfl, rfl⟩ | ⟨c, i, p, rfl, hreach, hp, hlst, hent, hfirst⟩
  · exact ⟨.dir, h.owned.labels.root _ _ (.inl ⟨rfl, rfl⟩), fun d hd => by cases hd⟩
  have hc := h.owned.labels.owner_eq hreach
  rcases hfirst with ⟨-, n, hn, hslot, rfl⟩ | ⟨hcnts, rfl⟩
  · refine ⟨.file, ?_, fun d hd => by cases hd⟩
    rw [h.owner_first hn.1 hne, place_of_file hn.2, hslot]
  · exact ⟨_, Coherent.owner_entry h.owned hc hp hlst ⟨hent, hcnts⟩ hne, fun d hd => by cases hd⟩

/-- Chains with different first clusters are disjoint. -/
theorem chain_disjoint {c' e e' cs cs'} (hc : owner c = some p)
    (hc' : owner c' = some q) (hq : ∀ d, q.via ≠ .next d) (hchain : Linked s.vol.fat IsValid c cs e)
    (hchain' : Linked s.vol.fat IsValid c' cs' e') (hnot : c ∉ cs') : ∀ d ∈ cs, d ∉ cs' := by
  induction hchain generalizing p with
  | nil =>
    intro d hd
    cases hd
  | @cons c e cs _ hrest ih =>
    intro d hd
    rcases mem_cons.mp hd with rfl | hd
    · exact hnot
    have hnext : IsValid (s.vol.fat c) := by
      cases hrest with
      | nil => cases hd
      | cons hnext _ => exact hnext
    obtain ⟨k, hk, -⟩ := h.owned.next hc hnext
    refine ih hk (fun hmem => ?_) d hd
    -- A common cluster has a common predecessor.
    obtain heq | ⟨d', hd', k', hk', -⟩ := h.owned.chain_owner hc' hchain' hmem
    · rw [heq, hc'] at hk
      exact hq c (congrArg Place.via (some.inj hk))
    · cases hk.symm.trans hk'
      exact hnot hd'

theorem Coherent.chains : s.Chains fs where
  ends x cluster hx := by
    by_cases hne : cluster = 0
    · subst hne
      exact ⟨[], 0, .nil not_isValid_zero, .inl rfl, nodup_nil, fun c hc => by cases hc⟩
    obtain ⟨k, howner, hvia⟩ := h.starts_owner hx hne
    obtain ⟨cs, e, hchain⟩ := h.owned.exists_chain howner hvia
    refine ⟨cs, e, hchain,
      .inr ⟨(h.owned.valid _ _ howner).1, h.owned.chain_end howner hchain⟩, hchain.nodup, ?_⟩
    intro c hc hfree
    obtain ⟨q, hq, -⟩ := h.owned.chain_kind howner hchain hc
    rw [h.owned.owner_eq_none hfree] at hq
    cases hq
  disjoint x y cluster cluster' cs cs' e e' hx hy hne hchain hchain' c hc := by
    by_cases hzero : cluster = 0
    · subst hzero
      obtain rfl := chain_zero hchain
      cases hc
    by_cases hzero' : cluster' = 0
    · subst hzero'
      obtain rfl := chain_zero hchain'
      exact not_mem_nil
    obtain ⟨k, howner, hvia⟩ := h.starts_owner hx hzero
    obtain ⟨k', howner', hvia'⟩ := h.starts_owner hy hzero'
    refine chain_disjoint h howner howner' hvia' hchain hchain' (fun hmem => ?_) c hc
    obtain rfl | ⟨d, -, k, hk, -⟩ := h.owned.chain_owner howner' hchain' hmem
    · exact hne (congrArg Place.via (some.inj (howner.symm.trans howner')))
    · exact hvia d (congrArg Place.via (some.inj (howner.symm.trans hk)))

end

/-! ### A volume that has just been mounted -/

/-- Only the root directory has a node. -/
def mounted (fs : Layout) (v : Volume) : Mount where
  vol := v
  addrs := {0}
  node _ := rootNode fs

theorem not_isOpened_mounted (c i : Nat) : (mounted fs v).isOpened fs c i = false := by
  rw [Bool.eq_false_iff]
  intro hopen
  obtain ⟨n, hn, -⟩ := isOpened_eq_true.mp hopen
  cases hn.2

theorem roots_mounted (h : (mounted fs v).roots fs p b) :
    p = ⟨.dir, .root⟩ ∧ b = fs.rootCluster := by
  rcases h with h | ⟨n, -, hp, hb, -⟩
  · exact h
  · exact ⟨hp, hb⟩

theorem first_mounted {i} (h : (mounted fs v).First fs c i cluster) :
    cluster = (v.dirs c i).cluster := by
  rcases h with ⟨-, n, hn, -⟩ | ⟨-, h⟩
  · cases hn.2
  · exact h

section Mounted

variable (hchains : (mounted fs v).Chains fs)

include hchains

/-- A cluster that is reached is in the chain of an entry: as the first one, or after the one
that points to it. -/
theorem reach_chain (h : (mounted fs v).Reach fs p b) :
    ∃ x cluster cs e, (mounted fs v).Starts fs x cluster ∧ Linked v.fat IsValid cluster cs e ∧
      eocMin ≤ e ∧ b ∈ cs ∧
        ((p.via = x ∧ b = cluster) ∨ ∃ d ∈ cs, p.via = .next d ∧ v.fat d = b) := by
  have hhead : ∀ {x : Via} {c : Nat}, (mounted fs v).Starts fs x c → IsValid c →
      ∃ cs e, Linked v.fat IsValid c cs e ∧ eocMin ≤ e ∧ c ∈ cs := by
    intro x c hstarts hval
    obtain ⟨cs, e, hchain, hend, -⟩ := hchains.ends x c hstarts
    refine ⟨cs, e, hchain, (hend.resolve_left hval.ne_zero).2, ?_⟩
    cases hchain with
    | nil hinv => exact absurd hval hinv
    | cons => exact mem_cons_self
  induction h with
  | root hroot =>
    obtain ⟨rfl, rfl⟩ := roots_mounted hroot
    have hstarts : (mounted fs v).Starts fs .root fs.rootCluster := .inl ⟨rfl, rfl⟩
    obtain ⟨cs, e, hchain, hend, hmem⟩ := hhead hstarts fs.rootCluster_valid
    exact ⟨_, _, cs, e, hstarts, hchain, hend, hmem, .inl ⟨rfl, rfl⟩⟩
  | @link p q b c k hp hq hc ih =>
    obtain ⟨hval, ⟨rfl, rfl⟩ | ⟨i, rfl, hkind, hlst, hcnts, rfl⟩⟩ := link_cases hq hc
    · obtain ⟨x, cluster, cs, e, hstarts, hchain, hend, hb, -⟩ := ih
      exact ⟨x, cluster, cs, e, hstarts, hchain, hend, hchain.next_mem hb hval,
        .inr ⟨b, hb, rfl, rfl⟩⟩
    have hstarts : (mounted fs v).Starts fs (.slot b i) (v.dirs b i).cluster :=
      .inr ⟨b, i, p, rfl, hp, hkind, hlst, hcnts.1,
        .inr ⟨.inr (not_isOpened_mounted b i), rfl⟩⟩
    obtain ⟨cs, e, hchain, hend, hmem⟩ := hhead hstarts hval
    exact ⟨_, _, cs, e, hstarts, hchain, hend, hmem, .inl ⟨rfl, rfl⟩⟩

section

variable (hp : (mounted fs v).Reach fs p b) (hq : (mounted fs v).Reach fs q b)
include hp hq

/-- Something points to a cluster in one way only. -/
theorem via_unique : p.via = q.via := by
  obtain ⟨x, c, cs, e, hx, hchain, -, hb, hvia⟩ := reach_chain hchains hp
  obtain ⟨y, c', cs', e', hy, hchain', -, hb', hvia'⟩ := reach_chain hchains hq
  obtain rfl : x = y := by
    by_contra hne
    exact hchains.disjoint x y c c' cs cs' e e' hx hy hne hchain hchain' b hb hb'
  obtain rfl : c = c' := by
    rcases hx with ⟨rfl, rfl⟩ | ⟨d, i, -, rfl, -, -, -, -, hfirst⟩ <;>
      rcases hy with ⟨hroot, hy⟩ | ⟨d', i', -, hslot, -, -, -, -, hfirst'⟩
    · exact hy.symm
    · cases hslot
    · cases hroot
    · obtain ⟨rfl, rfl⟩ := Via.slot.inj hslot
      exact (first_mounted hfirst).trans (first_mounted hfirst').symm
  obtain ⟨rfl, rfl⟩ := hchain.unique hchain'
  rcases hvia with ⟨hvia, rfl⟩ | ⟨d, hd, hvia, hnext⟩ <;>
    rcases hvia' with ⟨hvia', heq⟩ | ⟨d', hd', hvia', hnext'⟩
  · rw [hvia, hvia']
  · exact absurd hnext' (hchain.next_ne hd')
  · exact absurd (hnext.trans heq) (hchain.next_ne hd)
  · rw [hvia, hvia', hchain.next_injective hd hd' (hnext.trans hnext'.symm)]

/-- No cluster is reached at two places. -/
theorem place_unique : p = q := by
  have hvia := via_unique hchains hp hq
  induction hp generalizing q with
  | root hroot =>
    obtain ⟨rfl, rfl⟩ := roots_mounted hroot
    cases hq with
    | root hroot' => exact (roots_mounted hroot').1.symm
    | link _ hchild hlink =>
      obtain ⟨-, ⟨rfl, -⟩ | ⟨i, rfl, -⟩⟩ := link_cases hchild hlink <;> cases hvia
  | link hp hchild hlink ih =>
    have hcases := link_cases hchild hlink
    cases hq with
    | root hroot' =>
      obtain ⟨rfl, -⟩ := roots_mounted hroot'
      obtain ⟨-, ⟨rfl, -⟩ | ⟨i, rfl, -⟩⟩ := hcases <;> cases hvia
    | link hq' hchild' hlink' =>
      obtain ⟨-, ⟨rfl, -⟩ | ⟨i, rfl, -⟩⟩ := hcases <;>
        obtain ⟨-, ⟨rfl, -⟩ | ⟨i', rfl, -⟩⟩ := link_cases hchild' hlink' <;> cases hvia
      · rw [ih hq' (via_unique hchains hp hq')]
      · rfl

end

/-- Disjoint chains give every cluster a place. -/
theorem coherent_mounted (hlimit : ∀ c, badMark ≤ c → v.fat c ≠ freeMark) :
    ∃ owner, (mounted fs v).Coherent fs owner := by
  obtain ⟨owner, hlabels, hreach⟩ := exists_labels fun p q b => place_unique hchains
  refine ⟨owner, ⟨hlabels, fun p b d hroot => ?_, fun b p hb => ?_,
    fun b p i hb hp hlst hcnts => ?_, hlimit⟩, fun n hn => ?_, fun n m hn _ _ => ?_⟩
  · obtain ⟨rfl, -⟩ := roots_mounted hroot
    exact fun h => by cases h
  · obtain ⟨x, cluster, cs, e, -, hchain, hend, hmem, -⟩ := reach_chain hchains (hreach p b hb)
    refine ⟨hchain.valid_of_mem hmem, ?_⟩
    obtain ⟨ds, -, hrest⟩ := hchain.of_mem hmem
    cases hrest with
    | nil => exact .inr hend
    | cons hval => exact .inl hval
  · obtain ⟨cs, e, -, hend, -⟩ := hchains.ends (.slot b i) (v.dirs b i).cluster (.inr ⟨b, i, p, rfl,
      hreach p b hb, hp, hlst, hcnts.1, .inr ⟨.inr (not_isOpened_mounted b i), rfl⟩⟩)
    exact hend.imp_right And.left
  · cases hn.2
  · cases hn.2

end Mounted

/-! ### Every careful run -/

/-- From a volume whose chains are disjoint, every careful run of calls leads to a volume whose
chains are. -/
theorem chains_disjoint (hchains : (mounted fs v).Chains fs)
    (hlimit : ∀ c, badMark ≤ c → v.fat c ≠ freeMark) {calls : List Call}
    (hrun : GuardedRun (Mount.step fs) (Mount.Careful fs) (mounted fs v) calls s) :
    s.Chains fs := by
  obtain ⟨owner, h⟩ := hrun.inv (fun s => ∃ owner, s.Coherent fs owner)
    (fun _ _ _ h hcareful hstep => Coherent.step h hcareful hstep)
    (coherent_mounted hchains hlimit)
  exact h.chains

/-! ### A small volume -/

/-- Clusters of 512 bytes. -/
def smallFs : Layout where
  totalClusters := 65525
  entriesPerCluster := 16
  rootCluster := 2
  readOnly := false
  entriesPerCluster_pos := Nat.succ_pos 15
  totalClusters_lt := by decide
  rootCluster_valid := by decide

/-- A root directory of one cluster in which all entries have been removed. -/
def emptyVolume : Volume where
  fat c := if c = 2 ∨ badMark ≤ c then eoc else freeMark
  nextFree := 3
  freeClusters := countUnknown
  dirs c _ := if c = 2 then .short (direntFree :: List.replicate 10 32) 0 0 0 else .zero

theorem reach_emptyVolume (h : (mounted smallFs emptyVolume).Reach smallFs p b) :
    p = ⟨.dir, .root⟩ ∧ b = 2 := by
  induction h with
  | root hroot => exact roots_mounted hroot
  | @link p q b c k _ hq hc ih =>
    obtain ⟨rfl, rfl⟩ := ih
    obtain ⟨hval, ⟨rfl, rfl⟩ | ⟨i, -, -, -, hcnts, -⟩⟩ := link_cases hq hc
    · exact absurd hval (by decide)
    · exact absurd rfl hcnts.1.1

theorem starts_emptyVolume (h : (mounted smallFs emptyVolume).Starts smallFs x c) :
    x = .root ∧ c = 2 := by
  rcases h with h | ⟨c, i, p, -, hreach, -, -, hent, -⟩
  · exact h
  · obtain ⟨-, rfl⟩ := reach_emptyVolume hreach
    exact absurd rfl hent.1

theorem chains_emptyVolume : (mounted smallFs emptyVolume).Chains smallFs where
  ends x c hx := by
    obtain ⟨rfl, rfl⟩ := starts_emptyVolume hx
    refine ⟨[2], eoc, .cons (by decide) (.nil (by decide)), .inr ⟨by decide, by decide⟩,
      nodup_singleton 2, fun c hc => ?_⟩
    rw [mem_singleton.mp hc]
    decide
  disjoint x y _ _ _ _ _ _ hx hy hne := by
    rw [(starts_emptyVolume hx).1, (starts_emptyVolume hy).1] at hne
    exact absurd rfl hne

/-- A file `a` is made and written, and then removed. -/
def writeAndUnlink : List Call :=
  [.create 0 [97], .lookup 0 [97] 1, .write 1 (fun _ _ => .zero) 10 0, .close 1, .free 1,
    .unlink 0 [97]]

theorem chains_disjoint_writeAndUnlink :
    ∃ s, GuardedRun (Mount.step smallFs) (Mount.Careful smallFs) (mounted smallFs emptyVolume)
      writeAndUnlink s ∧ s.Chains smallFs := by
  apply exists_of (by decide +kernel)
  intro s hrun
  refine chains_disjoint chains_emptyVolume (fun c hc => ?_) hrun
  rw [show emptyVolume.fat c = eoc from if_pos (.inr hc)]
  decide

/-- The file is opened again and made longer, and removed before it is closed. -/
def unlinkWhileOpen : List Call :=
  [.create 0 [97], .lookup 0 [97] 1, .write 1 (fun _ _ => .zero) 10 0, .close 1, .free 1,
    .lookup 0 [97] 2, .write 2 (fun _ _ => .zero) 20 0, .unlink 0 [97], .close 2, .free 2]

/-- The entry is back, with a chain that has been freed. -/
theorem close_after_unlink : (mounted smallFs emptyVolume).Chains smallFs ∧
      ∃ s, run (Mount.step smallFs) (mounted smallFs emptyVolume) unlinkWhileOpen = some s ∧
        ¬ s.Chains smallFs := by
  obtain ⟨s, hcalls, hlisted, hentry, hopen, hcluster, hfree⟩ : ∃ s, run (Mount.step smallFs)
      (mounted smallFs emptyVolume) unlinkWhileOpen = some s ∧ Listed smallFs s.vol 2 0 ∧
        (s.vol.dirs 2 0).IsEntry ∧ s.isOpened smallFs 2 0 = false ∧
        (s.vol.dirs 2 0).cluster = 3 ∧ s.vol.fat 3 = freeMark := by
    decide +kernel
  refine ⟨chains_emptyVolume, s, hcalls, fun hchains => ?_⟩
  obtain ⟨cs, e, hchain, -, -, hused⟩ := hchains.ends (.slot 2 0) 3 (.inr ⟨2, 0, ⟨.dir, .root⟩, rfl,
    .root (.inl ⟨rfl, rfl⟩), rfl, hlisted, hentry, .inr ⟨.inr hopen, hcluster.symm⟩⟩)
  cases hchain with
  | nil hinvalid => exact hinvalid (by decide)
  | cons => exact hused 3 mem_cons_self hfree

end Mount

end Kurios.Fat32
