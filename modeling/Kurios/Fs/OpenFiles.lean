import Kurios.Fs.Files

/-!
The life of open files.

`Consistent` says what the counts of files and nodes mean. Each call is made of four
changes: a new file with its first descriptor, another descriptor for a file, and the end
of a descriptor that is or is not the last (`install`, `addRef`, `dropLast`, `dropRef`).
`open_files` is the result for the calls that are `Careful`; `close_after_dup` is a close
that is not.
-/

namespace Kurios.Fs

open Base Function Option List Finset

variable {dst node src : Nat} {entry : Nat × Nat → Option Nat}

namespace FileState

/-! ### One descriptor at a time -/

variable {s : FileState} {t f : Nat} {k : Nat × Nat}

theorem mem_keys : k ∈ s.keys ↔ k.1 ∈ s.tables ∧ k.2 < fdMax := by
  simp [keys]

theorem setRefCount_setRefCount_self (s : FileState) (f n : Nat) :
    (s.setRefCount f n).setRefCount f (s.file f).refCount = s := by
  simp [setRefCount]

theorem setOpen_eq_self {n} (h : s.openCount node = n) : s.setOpen node n = s := by
  subst h
  simp [setOpen]

theorem setEntry_setEntry_none (h : s.entry k = none) (f : Option Nat) :
    (s.setEntry k f).setEntry k none = s := by
  simp [setEntry, ← h]

theorem file_setRefCount (s : FileState) (f n g : Nat) :
    ((s.setRefCount f n).file g).node = (s.file g).node ∧
      ((s.setRefCount f n).file g).origin = (s.file g).origin := by
  rcases eq_or_ne g f with rfl | hne
  · simp [setRefCount]
  · simp [setRefCount, update_of_ne hne]

theorem refCount_setRefCount (s : FileState) (f n g : Nat) :
    ((s.setRefCount f n).file g).refCount = if g = f then n else (s.file g).refCount := by
  rcases eq_or_ne g f with rfl | hne
  · simp [setRefCount]
  · simp [setRefCount, hne]

theorem release_maps (s : FileState) (f : Nat) (a : Allocator) :
    (s.release f a).tables = s.tables ∧ (s.release f a).entry = s.entry := by
  unfold release
  split <;> exact ⟨rfl, rfl⟩

namespace Consistent

theorem of_start : start.Consistent where
  live f := by simp [start]
  refCount f hf := by simp [start] at hf
  openCount n := by simp [start, hits]
  released r hr := by simp [start] at hr
  stray := rfl

theorem mem_live (h : s.Consistent) (hk : k ∈ s.keys) (hf : s.entry k = some f) : f ∈ s.live :=
  (h.live f).mpr ⟨k, hk, hf⟩

theorem refCount_pos (h : s.Consistent) (hf : f ∈ s.live) : 0 < (s.file f).refCount := by
  rw [h.refCount f hf]
  exact hits_pos_iff.mpr ((h.live f).mp hf)

/-- A file no descriptor refers to is not counted. -/
theorem hits_eq_zero_of_notMem (h : s.Consistent) (hf : f ∉ s.live) : hits s.keys s.entry f = 0 :=
  hits_eq_zero fun _ hk heq => hf (h.mem_live hk heq)

/-- Existence and the counts of files follow from the number of descriptors. -/
theorem of_hits (hzero : ∀ f, f ∉ s.live → hits s.keys s.entry f = 0)
    (hpos : ∀ f ∈ s.live, 0 < (s.file f).refCount)
    (hcnt : ∀ f ∈ s.live, (s.file f).refCount = hits s.keys s.entry f)
    (hopen : ∀ n, s.openCount n = hits s.live (fun f => some (s.file f).node) n)
    (hreleased : ∀ r ∈ s.released, r.returned = r.obtained) (hstray : s.stray = 0) :
    s.Consistent where
  live f := by
    rw [← hits_pos_iff]
    constructor <;> intro hf
    · rw [← hcnt f hf]
      exact hpos f hf
    by_contra hdead
    rw [hzero f hdead] at hf
    exact lt_irrefl 0 hf
  refCount := hcnt
  openCount := hopen
  released := hreleased
  stray := hstray

section

variable (h : s.Consistent)
include h

/-- The descriptors of one file change, and its count with them. -/
theorem recount {n} (hf : f ∈ s.live) (hn : 0 < n)
    (hhits : ∀ g, hits s.keys entry g = if g = f then n else hits s.keys s.entry g) :
    ({ s with entry := entry }.setRefCount f n).Consistent := by
  refine of_hits (fun g hg => ?_) (fun g hg => ?_) (fun g hg => ?_) (fun m => ?_) h.released h.stray
  · have hne : g ≠ f := fun heq => hg (heq ▸ hf)
    exact (hhits g).trans (by rw [if_neg hne, h.hits_eq_zero_of_notMem hg])
  · rw [refCount_setRefCount]
    split
    · exact hn
    · exact h.refCount_pos hg
  · refine Eq.trans ?_ (hhits g).symm
    rw [refCount_setRefCount, ← h.refCount g hg]
  · refine (h.openCount m).trans (congrArg Nat.cast (hits_congr fun g _ => ?_)).symm
    rw [(file_setRefCount ..).1]

/-- Another descriptor for a file. -/
theorem addRef (hk : k ∈ s.keys) (hfree : s.entry k = none) (hf : f ∈ s.live) :
    ((s.setRefCount f ((s.file f).refCount + 1)).setEntry k (some f)).Consistent := by
  refine h.recount hf (Nat.succ_pos _) fun g => ?_
  refine (hits_set hk hfree f g).trans ?_
  rcases eq_or_ne g f with rfl | hne
  · rw [if_pos rfl, if_pos rfl, h.refCount g hf]
  · rw [if_neg hne.symm, if_neg hne]
    rfl

/-- A descriptor of a file that has others. -/
theorem dropRef (hk : k ∈ s.keys) (hf : s.entry k = some f) (hmany : 1 < (s.file f).refCount) :
    ((s.setEntry k none).setRefCount f ((s.file f).refCount - 1)).Consistent := by
  have hlive := h.mem_live hk hf
  refine h.recount hlive (by omega) fun g => ?_
  have hall := hits_clear hk hf g
  rcases eq_or_ne g f with rfl | hne
  · rw [if_pos rfl, ← h.refCount g hlive] at hall
    rw [if_pos rfl]
    omega
  · rw [if_neg hne.symm] at hall
    rw [if_neg hne]
    exact hall

/-- The contents of a file that does not exist do not matter. -/
theorem setFile (hf : f ∉ s.live) (file : File) :
    { s with file := update s.file f file }.Consistent := by
  have hfile : ∀ g ∈ s.live, update s.file f file g = s.file g :=
    fun g hg => update_of_ne (fun heq : g = f => hf (heq ▸ hg)) _ _
  refine { h with refCount := fun g hg => ?_, openCount := fun n => ?_ }
  · show (update s.file f file g).refCount = _
    rw [hfile g hg]
    exact h.refCount g hg
  · refine (h.openCount n).trans (congrArg Nat.cast (hits_congr fun g hg => ?_)).symm
    show some (update s.file f file g).node = _ ↔ _
    rw [hfile g hg]

/-- The first descriptor of a new file. -/
theorem install (hk : k ∈ s.keys) (hfree : s.entry k = none) (hf : f ∉ s.live) (node : Nat)
    (origin : Allocator) :
    (((s.obtain f ⟨node, 1, origin⟩).setEntry k (some f)).addOpen node 1).Consistent := by
  have hset := h.setFile hf ⟨node, 1, origin⟩
  have hhits := hits_set hk hfree f
  refine of_hits (fun g hg => ?_) (fun g hg => ?_) (fun g hg => ?_) (fun n => ?_) h.released h.stray
  · obtain ⟨hne, hg⟩ := not_or.mp (mem_insert.not.mp hg)
    exact (hhits g).trans (by rw [h.hits_eq_zero_of_notMem hg, if_neg (Ne.symm hne)])
  · obtain rfl | hg := mem_insert.mp hg
    · simp [addOpen, setOpen, setEntry, FileState.obtain]
    · exact hset.refCount_pos hg
  · refine Eq.trans ?_ (hhits g).symm
    obtain rfl | hg := mem_insert.mp hg
    · simp [addOpen, setOpen, setEntry, FileState.obtain, h.hits_eq_zero_of_notMem hf]
    · rw [if_neg fun heq : f = g => hf (heq ▸ hg)]
      exact hset.refCount g hg
  change update s.openCount node (s.openCount node + 1) n =
    (hits (insert f s.live) (fun g => some (update s.file f ⟨node, 1, origin⟩ g).node) n : Int)
  rw [hits_insert hf, update_self, Int.natCast_add, ← hset.openCount n]
  rcases eq_or_ne n node with rfl | hne
  · simp
  · simp [hne, Ne.symm hne]

/-- The last descriptor of a file, which is released to where it came from. -/
theorem dropLast (hk : k ∈ s.keys) (hf : s.entry k = some f) (hone : (s.file f).refCount = 1) :
    (((s.addOpen (s.file f).node (-1)).release f (s.file f).origin).setEntry k
      none).Consistent := by
  have hlive := h.mem_live hk hf
  have hhits := hits_clear hk hf
  have hopen : ∀ n, s.openCount n = hits (s.live.erase f) (fun g => some (s.file g).node) n +
      if (s.file f).node = n then 1 else 0 := by
    intro n
    rw [h.openCount n, hits_erase hlive]
    simp only [some.injEq]
    split <;> rfl
  have heq : ((s.addOpen (s.file f).node (-1)).release f (s.file f).origin).setEntry k none =
      { s with
        entry := update s.entry k none
        live := s.live.erase f
        openCount := update s.openCount (s.file f).node (s.openCount (s.file f).node + -1)
        released := ⟨(s.file f).origin, (s.file f).origin⟩ :: s.released } := by
    simp [release, addOpen, setOpen, setEntry, hlive]
  rw [heq]
  refine of_hits (fun g hg => ?_) (fun g hg => ?_) (fun g hg => ?_) (fun n => ?_) (fun r hr => ?_)
    h.stray
  · have hall := hhits g
    rcases eq_or_ne g f with rfl | hne
    · rw [← h.refCount g hlive, hone, if_pos rfl] at hall
      exact Nat.succ.inj hall
    · have hdead : g ∉ s.live := fun hmem => hg (mem_erase.mpr ⟨hne, hmem⟩)
      rw [h.hits_eq_zero_of_notMem hdead] at hall
      exact Nat.eq_zero_of_add_eq_zero_right hall
  · exact h.refCount_pos (mem_of_mem_erase hg)
  · have hall := hhits g
    rw [if_neg (ne_of_mem_erase hg).symm] at hall
    exact (h.refCount g (mem_of_mem_erase hg)).trans hall.symm
  · change update s.openCount (s.file f).node (s.openCount (s.file f).node + -1) n =
      (hits (s.live.erase f) (fun g => some (s.file g).node) n : Int)
    rcases eq_or_ne n (s.file f).node with rfl | hne
    · rw [update_self, hopen, if_pos rfl]
      omega
    · rw [update_of_ne hne, hopen, if_neg hne.symm]
      exact add_zero _
  · obtain rfl | hr := mem_cons.mp hr
    · rfl
    · exact h.released r hr

/-- A file that is given back at once. -/
theorem obtain_release (hf : f ∉ s.live) (file : File) :
    ((s.obtain f file).release f file.origin).Consistent := by
  have heq : (s.obtain f file).release f file.origin =
      { s with
        file := update s.file f file
        released := ⟨file.origin, file.origin⟩ :: s.released } := by
    simp [release, FileState.obtain, hf]
  have hset := h.setFile hf file
  rw [heq]
  refine { hset with released := fun r hr => ?_ }
  obtain rfl | hr := mem_cons.mp hr
  · rfl
  · exact h.released r hr

/-- A change of the tables that leaves the descriptors of every file. -/
theorem of_sameHits {tables}
    (hhits : ∀ f, hits { s with tables := tables, entry := entry }.keys entry f =
      hits s.keys s.entry f) : { s with tables := tables, entry := entry }.Consistent :=
  of_hits (fun f hf => (hhits f).trans (h.hits_eq_zero_of_notMem hf))
    (fun _ => h.refCount_pos) (fun f hf => (h.refCount f hf).trans (hhits f).symm)
    h.openCount h.released h.stray

/-! ### Whole calls -/

theorem create (ht : t ∉ s.tables) : (fdTableCreate s t).Consistent := by
  have hsub : s.keys ⊆ (fdTableCreate s t).keys :=
    product_subset_product_left (subset_insert t s.tables)
  have hold : ∀ k ∈ s.keys, (fdTableCreate s t).entry k = s.entry k := by
    intro k hk
    refine if_neg fun heq => ht ?_
    rw [← heq]
    exact (mem_keys.mp hk).1
  have hnew : ∀ k ∈ (fdTableCreate s t).keys, k ∉ s.keys → (fdTableCreate s t).entry k = none := by
    intro k hk hnot
    obtain ⟨htab, hlt⟩ := mem_keys.mp hk
    obtain heq | htab := mem_insert.mp htab
    · exact if_pos heq
    · exact absurd (mem_keys.mpr ⟨htab, hlt⟩) hnot
  refine h.of_sameHits fun f => ?_
  refine (hits_of_subset hsub fun k hk hnot heq => ?_).trans (hits_congr fun k hk => ?_)
  · cases (hnew k hk hnot).symm.trans heq
  · change (fdTableCreate s t).entry k = _ ↔ _
    rw [hold k hk]

/-- A table without open descriptors goes away. -/
theorem removeTable (hemp : ∀ fd < fdMax, s.entry (t, fd) = none) :
    { s with tables := s.tables.erase t }.Consistent := by
  have hsub : { s with tables := s.tables.erase t }.keys ⊆ s.keys :=
    product_subset_product_left (erase_subset t s.tables)
  have hgone : ∀ k ∈ s.keys, k ∉ { s with tables := s.tables.erase t }.keys → s.entry k = none := by
    intro k hk hnot
    obtain ⟨htab, hlt⟩ := mem_keys.mp hk
    by_cases heq : k.1 = t
    · have hnone := hemp k.2 hlt
      rwa [← heq] at hnone
    · exact absurd (mem_keys.mpr ⟨mem_erase.mpr ⟨heq, htab⟩, hlt⟩) hnot
  exact h.of_sameHits fun f =>
    (hits_of_subset hsub fun k hk hnot heq => by simp [hgone k hk hnot] at heq).symm

end

end Consistent

end FileState

open FileState

variable {s s' : FileState} {t f fd limit : Nat} {k : Nat × Nat}

theorem freeFd_spec (h : freeFd s t limit = some fd) :
    openEntries s t < limit ∧ fd < fdMax ∧ s.entry (t, fd) = none := by
  obtain ⟨hroom, hfind⟩ := ite_none_left_eq_some.mp h
  have hnone : (s.entry (t, fd)).isNone = true := by simpa using List.find?_some hfind
  have hfd := List.mem_range.mp (mem_of_find?_eq_some hfind)
  exact ⟨not_le.mp hroom, hfd, isNone_iff_eq_none.mp hnone⟩

theorem freeFd_of_fdTableAlloc (h : fdTableAlloc s t f limit = some (fd, s')) :
    freeFd s t limit = some fd := by
  obtain ⟨n, hn, ⟨⟩⟩ := map_eq_some_iff.mp h
  exact hn

theorem fdTableAlloc_spec (h : fdTableAlloc s t f limit = some (fd, s')) :
    fd < fdMax ∧ s.entry (t, fd) = none ∧ s' = s.setEntry (t, fd) (some f) := by
  obtain ⟨n, hn, ⟨⟩⟩ := map_eq_some_iff.mp h
  obtain ⟨-, hlt, hnone⟩ := freeFd_spec hn
  exact ⟨hlt, hnone, rfl⟩

theorem openEntries_eq_card (s : FileState) (t : Nat) :
    openEntries s t = {fd ∈ Finset.range fdMax | (s.entry (t, fd)).isSome}.card := by
  simp [openEntries, Finset.card, Finset.filter, Finset.range, Multiset.range]

theorem openEntries_fdTableAlloc (h : fdTableAlloc s t f limit = some (fd, s')) :
    openEntries s t < openEntries s' t := by
  obtain ⟨hfd, hfree, rfl⟩ := fdTableAlloc_spec h
  rw [openEntries_eq_card, openEntries_eq_card]
  apply card_lt_card
  rw [ssubset_iff_of_subset]
  · refine ⟨fd, Finset.mem_filter.mpr ⟨Finset.mem_range.mpr hfd, ?_⟩, by simp [hfree]⟩
    simp [setEntry]
  refine monotone_filter_right _ fun n hn => ?_
  by_cases heq : n = fd <;> simp_all [setEntry]

theorem openEntries_le (s : FileState) (t : Nat) : openEntries s t ≤ fdMax := by
  rw [openEntries_eq_card]
  exact (Finset.card_filter_le _ _).trans (Finset.card_range _).le

theorem fdTableAllocAt_spec (h : fdTableAllocAt s t fd f = some s') :
    fd < fdMax ∧ s.entry (t, fd) = none ∧ s' = s.setEntry (t, fd) (some f) := by
  unfold fdTableAllocAt at h
  split at h
  · cases h
  case isFalse hfree =>
  cases h
  obtain ⟨hlt, hnone⟩ := not_or.mp hfree
  exact ⟨not_le.mp hlt, not_isSome_iff_eq_none.mp hnone, rfl⟩

theorem fdTableGet_spec (h : fdTableGet s t fd = some f) :
    fd < fdMax ∧ s.entry (t, fd) = some f := by
  unfold fdTableGet at h
  split at h
  case isTrue hlt => exact ⟨hlt, h⟩
  · cases h

theorem vfsClose_tables (s : FileState) (t fd : Nat) : (vfsClose s t fd).tables = s.tables := by
  unfold vfsClose
  split
  · rfl
  · exact (release_maps ..).1

theorem vfsClose_entry_of_ne (hne : k ≠ (t, fd)) : (vfsClose s t fd).entry k = s.entry k := by
  unfold vfsClose
  split
  · rfl
  · refine (update_of_ne hne _ _).trans ?_
    rw [(release_maps ..).2]
    rfl

namespace FileState.Consistent

section

variable (h : s.Consistent)
include h

section

variable (ht : t ∈ s.tables)
include ht

theorem vfsOpen (hf : f ∉ s.live) (node limit : Nat) (opened : Bool) :
    (vfsOpen s t f node limit opened).Consistent := by
  unfold Fs.vfsOpen
  simp only
  split
  · exact h.obtain_release hf ⟨node, 1, .cache⟩
  rename_i fd s' halloc
  obtain ⟨hlt, hfree, rfl⟩ := fdTableAlloc_spec halloc
  cases opened
  case true => exact h.install (mem_keys.mpr ⟨ht, hlt⟩) hfree hf node .cache
  case false =>
  rw [setEntry_setEntry_none hfree]
  exact h.obtain_release hf ⟨node, 1, .cache⟩

theorem vfsClose (hsafe : s.CloseSafe t fd) : (vfsClose s t fd).Consistent := by
  unfold Fs.vfsClose
  split
  · exact h
  rename_i f hget
  obtain ⟨hone, horigin⟩ := hsafe f hget
  obtain ⟨hlt, hent⟩ := fdTableGet_spec hget
  rw [← horigin]
  exact h.dropLast (mem_keys.mpr ⟨ht, hlt⟩) hent hone

theorem vfsDup (old limit : Nat) : (vfsDup s t old limit).Consistent := by
  unfold Fs.vfsDup
  split
  · exact h
  rename_i f hget
  obtain ⟨hlt, hent⟩ := fdTableGet_spec hget
  have hlive := h.mem_live (mem_keys.mpr ⟨ht, hlt⟩) hent
  simp only
  split
  · rw [setRefCount_setRefCount_self]
    exact h
  · rename_i fd s' halloc
    obtain ⟨hfd, hfree, rfl⟩ := fdTableAlloc_spec halloc
    exact h.addRef (mem_keys.mpr ⟨ht, hfd⟩) hfree hlive

/-- The end of `vfs_dup2` and of `F_DUPFD`. -/
theorem dupAt (hf : f ∈ s.live) (fd : Nat) :
    (match fdTableAllocAt (s.setRefCount f ((s.file f).refCount + 1)) t fd f with
      | none => (s.setRefCount f ((s.file f).refCount + 1)).setRefCount f (s.file f).refCount
      | some s => s).Consistent := by
  split
  · rw [setRefCount_setRefCount_self]
    exact h
  · rename_i s' halloc
    obtain ⟨hfd, hfree, rfl⟩ := fdTableAllocAt_spec halloc
    exact h.addRef (mem_keys.mpr ⟨ht, hfd⟩) hfree hf

theorem fcntlDupfd (old low : Nat) : (fcntlDupfd s t old low).Consistent := by
  unfold Fs.fcntlDupfd
  split
  · exact h
  rename_i f hget
  obtain ⟨hlt, hent⟩ := fdTableGet_spec hget
  split
  · exact h
  · exact h.dupAt ht (h.mem_live (mem_keys.mpr ⟨ht, hlt⟩) hent) _

theorem vfsDup2 {old new} (hsafe : old ≠ new → (fdTableGet s t old).isSome → s.CloseSafe t new) :
    (vfsDup2 s t old new).Consistent := by
  unfold Fs.vfsDup2
  split
  · exact h
  rename_i hrng
  obtain ⟨-, hrng⟩ := not_or.mp hrng
  obtain ⟨-, hne⟩ := not_or.mp hrng
  split
  · exact h
  rename_i f hget
  have hclose := h.vfsClose ht (hsafe hne (by rw [hget]; rfl))
  obtain ⟨hlt, hent⟩ := fdTableGet_spec hget
  -- The old descriptor still refers to its file, so the file was not the one released.
  have hkeep : (Fs.vfsClose s t new).entry (t, old) = some f :=
    (vfsClose_entry_of_ne fun heq => hne (Prod.mk.inj heq).2).trans hent
  have htables : t ∈ (Fs.vfsClose s t new).tables := by
    rw [vfsClose_tables]
    exact ht
  exact hclose.dupAt htables (hclose.mem_live (mem_keys.mpr ⟨htables, hlt⟩) hkeep) new

end

end

end FileState.Consistent

/-! ### Loops over a table -/

namespace FileState

theorem putFile_many (hmany : 1 < (s.file f).refCount) :
    putFile s f = s.setRefCount f ((s.file f).refCount - 1) := by
  have hleft : (s.file f).refCount - 1 ≠ 0 := by omega
  unfold putFile
  simp only
  rw [if_pos (Nat.lt_of_succ_lt hmany), refCount_setRefCount, if_pos rfl, if_neg hleft]

theorem putFile_one (hone : (s.file f).refCount = 1) :
    putFile s f = ((s.setRefCount f 0).addOpen (s.file f).node (-1)).release f .heap := by
  unfold putFile
  simp only
  rw [hone, if_pos one_pos, refCount_setRefCount, if_pos rfl, if_pos rfl, (file_setRefCount ..).1]

theorem putFile_maps (s : FileState) (f : Nat) :
    (putFile s f).tables = s.tables ∧ (putFile s f).entry = s.entry := by
  unfold putFile
  simp only
  split <;> split <;> simp [release_maps, addOpen, setOpen, setRefCount]

end FileState

namespace FileState.Consistent

theorem cloneEntry (h : s.Consistent) (hsrc : src ∈ s.tables) (hdst : dst ∈ s.tables)
    (hfd : fd < fdMax) (hfree : s.entry (dst, fd) = none) :
    (cloneEntry src dst fd s).Consistent := by
  unfold Fs.cloneEntry
  split
  · exact h
  · rename_i f hent
    exact h.addRef (mem_keys.mpr ⟨hdst, hfd⟩) hfree (h.mem_live (mem_keys.mpr ⟨hsrc, hfd⟩) hent)

theorem fdTableClone (h : s.Consistent) (hsrc : src ∈ s.tables) (hdst : dst ∉ s.tables) :
    (fdTableClone s src dst).Consistent := by
  refine (forRange_inv (fun i (u : FileState) => u.Consistent ∧ src ∈ u.tables ∧ dst ∈ u.tables ∧
    ∀ fd ≥ i, u.entry (dst, fd) = none) zero_le ?_ ?_).1
  · exact ⟨h.create hdst, mem_insert_of_mem hsrc, mem_insert_self dst _, fun fd _ => if_pos rfl⟩
  rintro i u - hi ⟨hu, hs, hd, hfree⟩
  refine ⟨hu.cloneEntry hs hd hi (hfree i (le_refl i)), ?_⟩
  unfold Fs.cloneEntry
  split
  · exact ⟨hs, hd, fun fd hfd => hfree fd (Nat.le_of_succ_le hfd)⟩
  refine ⟨hs, hd, fun fd hfd => ?_⟩
  refine (update_of_ne (fun heq => ?_) _ _).trans (hfree fd (Nat.le_of_succ_le hfd))
  cases heq
  exact lt_irrefl i hfd

theorem putFile (h : s.Consistent) (hk : k ∈ s.keys) (hf : s.entry k = some f)
    (hlast : (s.file f).refCount = 1 → (s.file f).origin = .heap) :
    (putFile (s.setEntry k none) f).Consistent := by
  have hlive := h.mem_live hk hf
  have hpos : 0 < (s.file f).refCount := h.refCount_pos hlive
  by_cases hone : (s.file f).refCount = 1
  · have hdrop := h.dropLast hk hf hone
    have hdead : f ∉ (((s.addOpen (s.file f).node (-1)).release f
        (s.file f).origin).setEntry k none).live := by
      simp [release, addOpen, setOpen, setEntry, hlive]
    have heq : Fs.putFile (s.setEntry k none) f =
        { ((s.addOpen (s.file f).node (-1)).release f (s.file f).origin).setEntry k none with
          file := update s.file f { s.file f with refCount := 0 } } := by
      rw [putFile_one (s := s.setEntry k none) hone]
      simp [release, addOpen, setOpen, setEntry, setRefCount, hlive, hlast hone]
    have hset := hdrop.setFile hdead { s.file f with refCount := 0 }
    rw [heq]
    convert hset using 3
    simp [release, addOpen, setOpen, setEntry, hlive]
  · have hmany : 1 < (s.file f).refCount := by omega
    rw [putFile_many (s := s.setEntry k none) hmany]
    exact h.dropRef hk hf hmany

end FileState.Consistent

namespace FileState

/-- The other descriptors of the table stay safe to clear. -/
theorem DropSafe.putFile (h : s.Consistent) (hsafe : s.DropSafe t) (hfd : fd < fdMax)
    (ht : t ∈ s.tables) (hf : s.entry (t, fd) = some f) :
    (putFile (s.setEntry (t, fd) none) f).DropSafe t := by
  have hlive := h.mem_live (mem_keys.mpr ⟨ht, hfd⟩) hf
  have hrow : (t, fd) ∈ row t := by simp [row, hfd]
  have hpos : 0 < (s.file f).refCount := h.refCount_pos hlive
  intro g hg hcnt
  have hall := hits_clear hrow hf g
  rw [(putFile_maps ..).2] at hcnt
  change _ = hits (row t) (update s.entry (t, fd) none) g at hcnt
  by_cases hone : (s.file f).refCount = 1
  · rw [putFile_one (s := s.setEntry (t, fd) none) hone] at hg hcnt ⊢
    have hkept : g ∈ s.live.erase f := by
      simpa [release, addOpen, setOpen, setEntry, setRefCount, hlive] using hg
    obtain ⟨hne, hmem⟩ := mem_erase.mp hkept
    have hfile : ((((s.setEntry (t, fd) none).setRefCount f 0).addOpen (s.file f).node (-1)).release
        f .heap).file g = s.file g := by
      simp [release, addOpen, setOpen, setEntry, setRefCount, hlive, hne]
    rw [show (s.setEntry (t, fd) none).file f = s.file f from rfl, hfile] at hcnt ⊢
    rw [if_neg hne.symm, ← hcnt] at hall
    exact hsafe g hmem hall
  have hmany : 1 < (s.file f).refCount := by omega
  rw [putFile_many (s := s.setEntry (t, fd) none) hmany] at hg hcnt ⊢
  rw [(file_setRefCount ..).2]
  rw [refCount_setRefCount] at hcnt
  refine hsafe g hg ?_
  by_cases hgf : g = f
  · subst hgf
    rw [if_pos rfl] at hcnt hall
    change (s.file g).refCount - 1 = _ at hcnt
    omega
  · rw [if_neg hgf] at hcnt
    rw [if_neg (Ne.symm hgf)] at hall
    exact hcnt.trans hall

/-- What holds of a table whose descriptors below `i` are cleared. -/
structure Clearing (t i : Nat) (s : FileState) : Prop where
  consistent : s.Consistent
  table : t ∈ s.tables
  safe : s.DropSafe t
  cleared : ∀ fd < i, s.entry (t, fd) = none

theorem Clearing.destroyEntry {i} (h : s.Clearing t i) (hi : i < fdMax) :
    (destroyEntry t i s).Clearing t (i + 1) := by
  unfold Fs.destroyEntry
  split
  · rename_i hnone
    refine { h with cleared := fun fd hfd => ?_ }
    rcases Nat.lt_succ_iff_lt_or_eq.mp hfd with hlt | rfl
    · exact h.cleared fd hlt
    · exact hnone
  rename_i f hent
  have hk : (t, i) ∈ s.keys := mem_keys.mpr ⟨h.table, hi⟩
  have hlive := h.consistent.mem_live hk hent
  -- A count of one is this descriptor's, so no other table refers to the file.
  have hlast : (s.file f).refCount = 1 → (s.file f).origin = .heap := by
    intro hone
    refine h.safe f hlive (le_antisymm ?_ ?_)
    · rw [hone]
      exact hits_pos_iff.mpr ⟨(t, i), by simp [row, hi], hent⟩
    · rw [h.consistent.refCount f hlive]
      refine hits_mono (product_subset_product_left ?_)
      exact singleton_subset_iff.mpr h.table
  refine ⟨h.consistent.putFile hk hent hlast, ?_, h.safe.putFile h.consistent hi h.table hent,
    fun fd hfd => ?_⟩
  · rw [(putFile_maps ..).1]
    exact h.table
  rw [(putFile_maps ..).2]
  rcases Nat.lt_succ_iff_lt_or_eq.mp hfd with hlt | rfl
  · refine (update_of_ne (fun heq => ?_) _ _).trans (h.cleared fd hlt)
    exact ne_of_lt hlt (Prod.mk.inj heq).2
  · exact update_self _ _ _

end FileState

namespace FileState.Consistent

theorem fdTableDestroy (h : s.Consistent) (ht : t ∈ s.tables) (hsafe : s.DropSafe t) :
    (fdTableDestroy s t).Consistent := by
  have hloop : (forRange 0 fdMax (destroyEntry t) s).Clearing t fdMax :=
    forRange_inv (Clearing t) zero_le
      ⟨h, ht, hsafe, fun fd hfd => absurd hfd (Nat.not_lt_zero fd)⟩
      fun i u _ hi hu => hu.destroyEntry hi
  exact hloop.consistent.removeTable hloop.cleared

/-- `setup_stdio` in a table that is empty from `fd` on. -/
theorem setupStdio {files} (h : s.Consistent) (ht : t ∈ s.tables)
    (hemp : ∀ n ≥ fd, s.entry (t, n) = none) (hroom : fd + files.length ≤ fdMax)
    (hnd : files.Nodup) (hnew : ∀ f ∈ files, f ∉ s.live) (node : Nat) :
    (setupStdio s t node fd files).Consistent := by
  induction files generalizing s fd with
  | nil => exact h
  | cons f fs ih =>
    have hfd : fd < fdMax := by
      rw [length_cons] at hroom
      omega
    have hfree := hemp fd (le_refl fd)
    have hent : stdioEntry s t node fd f =
        ((s.obtain f ⟨node, 1, .heap⟩).setEntry (t, fd) (some f)).addOpen node 1 := by
      unfold stdioEntry
      simp only [fdTableAllocAt]
      rw [if_neg]
      · rfl
      · refine not_or.mpr ⟨Nat.not_le_of_lt hfd, ?_⟩
        simpa [addOpen, setOpen, FileState.obtain] using hfree
    have hinstall := h.install (mem_keys.mpr ⟨ht, hfd⟩) hfree (hnew f mem_cons_self) node .heap
    rw [Fs.setupStdio, hent]
    obtain ⟨hhead, htail⟩ := nodup_cons.mp hnd
    refine ih hinstall ht (fun n hn => ?_) ?_ htail fun g hg => ?_
    · refine (update_of_ne (fun heq => ?_) _ _).trans (hemp n (Nat.le_of_succ_le hn))
      exact ne_of_gt hn (Prod.mk.inj heq).2
    · rw [length_cons] at hroom
      omega
    · refine mem_insert.not.mpr (not_or.mpr ⟨?_, hnew g (mem_cons_of_mem f hg)⟩)
      exact fun heq => hhead (heq ▸ hg)

theorem openCount_eq_zero (h : s.Consistent) (hnode : s.Unused node) : s.openCount node = 0 := by
  rw [h.openCount node, hits_eq_zero fun f hf heq => hnode f hf (some.inj heq)]
  rfl

/-- A pipe that is not made leaves no trace. -/
theorem pipeCreate (h : s.Consistent) {rfile wfile rnode wnode} (hr : rfile ∉ s.live)
    (hw : wfile ∉ s.live) (hne : rfile ≠ wfile) (hrnode : s.Unused rnode) (hwnode : s.Unused wnode)
    (hfull : min limit fdMax < openEntries s t + 2) :
    (pipeCreate s t rfile wfile rnode wnode limit).Consistent := by
  have hcnts : (s.setOpen rnode 0).setOpen wnode 0 = s := by
    rw [setOpen_eq_self (h.openCount_eq_zero hrnode), setOpen_eq_self (h.openCount_eq_zero hwnode)]
  have hback : ((((s.obtain rfile ⟨rnode, 1, .heap⟩).obtain wfile ⟨wnode, 1, .heap⟩).release wfile
      .heap).release rfile .heap).Consistent := by
    have hboth := (h.obtain_release hw ⟨wnode, 1, .heap⟩).obtain_release (by
      simpa [release, FileState.obtain, hw] using hr) ⟨rnode, 1, .heap⟩
    convert hboth using 1
    simp [release, FileState.obtain, hr, hw, Ne.symm hne, update_comm hne]
  unfold Fs.pipeCreate
  simp only [hcnts]
  split
  · exact hback
  rename_i rfd s' halloc
  split
  · obtain ⟨-, hfree, rfl⟩ := fdTableAlloc_spec halloc
    rw [setEntry_setEntry_none hfree]
    exact hback
  -- Two descriptors were given out, so that there was room for both.
  rename_i wfd s'' halloc'
  have hfirst := openEntries_fdTableAlloc halloc
  change openEntries s t < _ at hfirst
  have hsecond := openEntries_fdTableAlloc halloc'
  have hroom := (freeFd_spec (freeFd_of_fdTableAlloc halloc')).1
  have hmax := openEntries_le s'' t
  omega

/-- Careful calls keep the counts right. -/
theorem step {s s' : FileState} {c : FileCall} (h : s.Consistent) (hcare : s.Careful c)
    (hstep : s.step c = some s') : s'.Consistent := by
  cases c with
  | create t node files =>
    obtain ⟨⟨ht, hlen, hnd, hnew⟩, rfl⟩ := ite_eq_some hstep
    refine (h.create ht).setupStdio (mem_insert_self t _) (fun n _ => if_pos rfl) ?_ hnd
      hnew node
    unfold fdMax
    omega
  | «open» t f node limit opened =>
    obtain ⟨⟨ht, hf⟩, rfl⟩ := ite_eq_some hstep
    exact h.vfsOpen ht hf node limit opened
  | pipe t rfile wfile rnode wnode limit =>
    obtain ⟨⟨-, hr, hw, hne, -, hrnode, hwnode⟩, rfl⟩ := ite_eq_some hstep
    exact h.pipeCreate hr hw hne hrnode hwnode hcare
  | dup t old limit =>
    obtain ⟨ht, rfl⟩ := ite_eq_some hstep
    exact h.vfsDup ht old limit
  | dup2 t old new =>
    obtain ⟨ht, rfl⟩ := ite_eq_some hstep
    exact h.vfsDup2 ht hcare
  | dupfd t old low =>
    obtain ⟨ht, rfl⟩ := ite_eq_some hstep
    exact h.fcntlDupfd ht old low
  | close t fd =>
    obtain ⟨ht, rfl⟩ := ite_eq_some hstep
    exact h.vfsClose ht hcare
  | clone src dst =>
    obtain ⟨⟨hsrc, hdst⟩, rfl⟩ := ite_eq_some hstep
    exact h.fdTableClone hsrc hdst
  | destroy t =>
    obtain ⟨ht, rfl⟩ := ite_eq_some hstep
    exact h.fdTableDestroy ht hcare

end FileState.Consistent

/-- In every history of careful calls, the open files are consistent. -/
theorem open_files {calls : List FileCall} {s : FileState}
    (hrun : GuardedRun FileState.step FileState.Careful FileState.start calls s) : s.Consistent :=
  hrun.inv Consistent (fun _ _ _ h => h.step) Consistent.of_start

/-- A process opens a file, closes it and opens it again; it forks, and the child duplicates
a descriptor of its own and exits. -/
def forkAndExit : List FileCall :=
  [.create 1 7 [10, 11, 12], .open 1 20 8 64 true, .close 1 3, .open 1 20 8 64 true,
    .open 1 21 9 64 false, .clone 1 2, .dup 2 3 64, .dup2 1 0 5, .dupfd 2 1 30, .destroy 2,
    .pipe 1 30 31 40 41 5]

theorem open_files_forkAndExit :
    ∃ s, GuardedRun FileState.step FileState.Careful FileState.start forkAndExit s ∧
      s.live = {10, 11, 12, 20} ∧ s.released.length = 4 ∧ s.Consistent := by
  apply exists_and_of₂ (by decide +kernel)
  intro s hrun _ _
  exact open_files hrun

/-- A process duplicates a descriptor and closes it: the file is released, and the duplicate
still refers to it. -/
theorem close_after_dup : ∃ s, run FileState.step FileState.start
        [.create 1 7 [10, 11, 12], .open 1 20 8 64 true, .dup 1 3 64, .close 1 3] = some s ∧
      s.entry (1, 4) = some 20 ∧ 20 ∉ s.live ∧ ¬ s.Consistent := by
  obtain ⟨s, hcalls, hentry, hdead, hkey⟩ : ∃ s, run FileState.step FileState.start
      [.create 1 7 [10, 11, 12], .open 1 20 8 64 true, .dup 1 3 64, .close 1 3] = some s ∧
        s.entry (1, 4) = some 20 ∧ 20 ∉ s.live ∧ (1, 4) ∈ s.keys := by
    decide +kernel
  exact ⟨s, hcalls, hentry, hdead, fun h => hdead (h.mem_live hkey hentry)⟩

end Kurios.Fs
