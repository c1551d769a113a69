import Kurios.Fat32.Lookup
import Kurios.Fat32.Run

/-!
Additions to and removals from a FAT32 directory, and the lookups after them.

A directory is well formed (`WellFormed`) if its slots are those of files no two of which
answer to one name. An addition that finds its entries in the first cluster adds one file
(`WellFormed.add`), a removal takes one away (`WellFormed.remove`), so lookups of other names
find what they found.
-/

namespace Kurios.Fat32

open Base Errno Function Option List

variable {s u : Slot} {row : List Slot} {ds : List Dirent} {fuel : Nat} {short : List Nat × Bool}
  {d : Dirent} {g f : File} {m : List Nat}

variable {fs : Layout} {v v' : Volume} {c dc : Nat} {name : List Nat} {files : List File}

/-! ### Directories and their files -/

/-- The files of a directory. -/
structure WellFormed (fs : Layout) (v : Volume) (dc : Nat) (files : List File) : Prop where
  valid : IsValid dc
  chain : ∃ cs e, Linked v.fat IsValid dc cs e
  parsed : Parsed (dirSlots fs v clusterLimit dc 0).1 files
  distinct : files.Pairwise fun f g => ∀ m, f.Answers m → ¬ g.Answers m

namespace WellFormed

section

variable (h : WellFormed fs v dc files)
include h

theorem findInDir_eq (m : List Nat) :
    findInDir fs v dc m = some ((files.find? fun f => decide (f.Answers m)).map File.slot) := by
  obtain ⟨cs, e, hchain⟩ := h.chain
  unfold findInDir
  simp only [find_parsed h.parsed m, complete_of_chain hchain, if_true]
  cases files.find? fun f => decide (f.Answers m) <;> rfl

theorem ordered : Ordered fs (dirSlots fs v clusterLimit dc 0).1 := by
  obtain ⟨cs, e, hchain⟩ := h.chain
  exact ordered_dirSlots hchain (dvd_zero _)

theorem path : Path fs v dc 0 (dirSlots fs v clusterLimit dc 0).1 :=
  path_dirSlots (dvd_zero _) h.valid

/-- A name that is not found belongs to no file. -/
theorem not_answers (habsent : findInDir fs v dc m = some none) (hf : f ∈ files) :
    ¬ f.Answers m := by
  rw [h.findInDir_eq, some.injEq, map_eq_none_iff, find?_eq_none] at habsent
  simpa using habsent f hf

end

end WellFormed

theorem File.Answers.congr {m'} (h : f.Answers m) (hm : SameName m' m) : f.Answers m' := by
  rcases h with ⟨l, hl, hsame⟩ | hsame
  · exact .inl ⟨l, hl, hsame.trans hm.symm⟩
  · exact .inr (hsame.trans hm.symm)

theorem find_other {before after} (hf : ¬ f.Answers m) :
    (before ++ f :: after).find? (fun f => decide (f.Answers m)) =
      (before ++ after).find? fun f => decide (f.Answers m) := by
  rw [find?_append, find?_append, find?_cons_of_neg (by simpa using hf)]

/-! ### Additions -/

/-- The slot with another entry. -/
def Slot.withEntry (s : Slot) (d : Dirent) : Slot := { s with entry := d }

/-- A slot whose entry has not changed. -/
theorem refresh_eq (hs : s ∈ (dirSlots fs v clusterLimit c 0).1)
    (hsame : v'.dirs s.cluster (s.pos fs) = v.dirs s.cluster (s.pos fs)) : s.refresh fs v' = s := by
  rw [Slot.refresh, hsame, ← (mem_dirSlots (dvd_zero _) hs).2]

/-- What is written to slots in order is in them. -/
theorem refresh_writeAt (hordered : Ordered fs row) (hlen : ds.length = row.length) (v : Volume) :
    row.map (Slot.refresh fs (writeAt fs v (row.zip ds))) = row.zipWith Slot.withEntry ds := by
  induction row generalizing ds v with
  | nil => rfl
  | cons s row ih =>
    cases ds with
    | nil => cases hlen
    | cons d ds =>
      obtain ⟨hs, hrest⟩ := pairwise_cons.mp hordered
      rw [zip_cons_cons, writeAt_cons, map_cons, zipWith_cons_cons, ih hrest (Nat.succ.inj hlen)]
      -- The later writes go to other slots.
      have hd : (writeAt fs (v.setDirent s.cluster (s.pos fs) d) (row.zip ds)).dirs s.cluster
          (s.pos fs) = d := by
        rw [writeAt_of_not_mem fun w hw heq => ?_, setDirent_dirs, if_pos ⟨rfl, rfl⟩]
        have hlt := hs w.1 (of_mem_zip hw).1 heq.1
        exact absurd heq.2 (ne_of_lt hlt)
      rw [Slot.refresh, hd]
      rfl

/-- The slots of a directory after entries have been written over free ones. -/
theorem dirSlots_writeAt {before after}
    (hslots : (dirSlots fs v clusterLimit c 0).1 = before ++ row ++ after)
    (hordered : Ordered fs (before ++ row ++ after)) (hrow : ∀ s ∈ row, s.entry.first = direntFree)
    (hds : ∀ d ∈ ds, d.first ≠ direntEnd) (hlen : ds.length = row.length) :
    (dirSlots fs (writeAt fs v (row.zip ds)) clusterLimit c 0).1 =
      before ++ row.zipWith Slot.withEntry ds ++ after := by
  have hdvd : fs.entriesPerCluster ∣ 0 := dvd_zero _
  have hmem : ∀ {s}, s ∈ before ++ row ++ after → s ∈ (dirSlots fs v clusterLimit c 0).1 :=
    fun hs => hslots ▸ hs
  have hends : SameEnds v (writeAt fs v (row.zip ds)) := by
    intro b j
    obtain hsame | ⟨w, hw, rfl, rfl, hd⟩ := writeAt_mem fs v (row.zip ds) b j
    · rw [hsame]
    obtain ⟨hs, hd'⟩ := of_mem_zip hw
    have hent := (mem_dirSlots hdvd (hmem (mem_append_left _ (mem_append_right _ hs)))).2
    rw [hd, ← hent, hrow w.1 hs]
    exact ⟨fun heq => absurd heq (hds w.2 hd'), fun heq => absurd heq (by decide)⟩
  -- Slots outside the row are not written.
  have hother : ∀ s, s ∈ before ++ row ++ after →
      (∀ t ∈ row, ¬ (s.cluster = t.cluster ∧ s.pos fs = t.pos fs)) →
        s.refresh fs (writeAt fs v (row.zip ds)) = s := by
    intro s hs hne
    exact refresh_eq (hmem hs) (writeAt_of_not_mem fun w hw => hne w.1 (of_mem_zip hw).1)
  have hbef : before.map (Slot.refresh fs (writeAt fs v (row.zip ds))) = before := by
    refine (map_congr_left fun s hs => ?_).trans (map_id' before)
    refine hother s (by simp [hs]) fun t ht => ?_
    rw [append_assoc] at hordered
    exact hordered.ne_of_append hs (mem_append_left _ ht)
  have hafter : after.map (Slot.refresh fs (writeAt fs v (row.zip ds))) = after := by
    refine (map_congr_left fun s hs => ?_).trans (map_id' after)
    refine hother s (by simp [hs]) fun t ht heq => ?_
    exact hordered.ne_of_append (mem_append_right _ ht) hs ⟨heq.1.symm, heq.2.symm⟩
  have hrowOrdered : Ordered fs row := (pairwise_append.mp (pairwise_append.mp hordered).1).2.1
  rw [hends.dirSlots (writeAt_sameTable fs v _).fat hdvd, hslots]
  simp [hbef, hafter, refresh_writeAt hrowOrdered hlen]

/-- A path that stays in one cluster. -/
theorem Path.cluster_eq {i} (h : Path fs v c i row)
    (hfits : i + row.length ≤ fs.entriesPerCluster) : ∀ s ∈ row, s.cluster = c := by
  induction row generalizing i with
  | nil => exact fun s hs => absurd hs not_mem_nil
  | cons t row ih =>
    rw [length_cons] at hfits
    obtain ⟨hhead, hrest⟩ := h
    rw [if_pos (by omega)] at hhead
    obtain ⟨hclus, hpos⟩ := hhead
    rw [hclus, hpos] at hrest
    intro s hs
    rcases mem_cons.mp hs with rfl | hs
    · exact hclus
    · exact ih hrest (by omega) s hs

/-- The loop for the short name gives the first one, or says that a long name is needed. -/
theorem pickShortName_flag {suffix start}
    (h : pickShortName fs v dc name fuel suffix start = some short) :
    short = start ∨ short.2 = true := by
  induction fuel generalizing suffix start with
  | zero => exact .inl (some.inj h).symm
  | succ fuel ih =>
    rw [pickShortName] at h
    split at h
    · cases h
    · exact .inl (some.inj h).symm
    · rcases ih h with rfl | hflag
      · exact .inr rfl
      · exact .inr hflag

/-- The addition of a name that is absent, as is its alias, finds its entries in the first
cluster of the directory. The buffer for the long name is large enough, and a name without a
long name does not end in a dot. -/
def AddsInOne (fs : Layout) (v : Volume) (dc : Nat) (name : List Nat) : Prop :=
  findInDir fs v dc name = some none ∧ lfnCount name * lfnChars ≤ nameMax + 1 ∧
    ∃ short ∈ shortNameFor fs v dc name,
      findInDir fs v dc (shortToName short.1) = some none ∧
      (short.2 = true ∨ name.length > 11 ∨ name.getLast? ≠ some 46) ∧
      ∃ start ∈ findFreeInDir fs v dc (entriesFor name short), ∃ s ∈ start,
        s.index + entriesFor name short ≤ fs.entriesPerCluster
deriving Decidable

/-- The entries of a long name are in use. -/
theorem createLfn_used {checksum} (h : createLfn name checksum = some ds) (hd : d ∈ ds) :
    d.first ≠ direntFree ∧ d.isLong = true := by
  unfold createLfn at h
  split at h
  · cases h
  case isFalse hfits =>
  obtain rfl := (some.inj h).symm
  obtain ⟨i, hi, rfl⟩ := mem_map.mp hd
  refine ⟨?_, rfl⟩
  have hcnt : lfnCount name ≤ 19 := by
    unfold lfnChars nameMax at hfits
    omega
  simp only [lfnEntry, Dirent.first, lfnLast, direntFree]
  split <;> omega

/-- The entries of an addition, written to slots of one cluster, are those of a file. -/
theorem isFile_newEntries {attr cluster size} (hne : name ≠ []) (hascii : IsAscii name)
    (hshort : shortNameFor fs v dc name = some short) (hattr : attr &&& attrVolumeId = 0)
    (hdot : short.2 = true ∨ name.length > 11 ∨ name.getLast? ≠ some 46)
    (hds : newEntries name short.1 short.2 attr cluster size = some ds)
    (hlength : ds.length = row.length) (hrow : ∀ s ∈ row, s.cluster = c) :
    ∃ longs f, row.zipWith Slot.withEntry ds = longs ++ [f.slot] ∧ IsFile longs f ∧
      f.slot.entry = .short short.1 attr cluster size ∧
      ∀ m, f.Answers m ↔ SameName name m ∨ SameName (shortToName short.1) m := by
  obtain ⟨x, xs, hx, hcode⟩ := shortNameFor_first hshort
  have hent : (Dirent.short short.1 attr cluster size).IsEntry := by
    rw [hx]
    exact isEntry_short hcode hattr
  -- The last slot is for the short entry.
  have hslots : ∀ longs : List Dirent, ds = longs ++ [.short short.1 attr cluster size] →
      ∃ init last, row.zipWith Slot.withEntry ds =
        init ++ [Slot.withEntry last (.short short.1 attr cluster size)] ∧
          init.map Slot.entry = longs ∧ (∀ s ∈ init, s.cluster = c) ∧ last.cluster = c := by
    rintro longs rfl
    obtain ⟨init, last, rfl⟩ : ∃ init last, row = init ++ [last] := by
      refine ⟨row.dropLast, row.getLast ?_, (dropLast_append_getLast _).symm⟩
      rintro rfl
      simp at hlength
    have hinit : init.length = longs.length := by
      simpa using hlength.symm
    refine ⟨init.zipWith Slot.withEntry longs, last, ?_, ?_, fun s hs => ?_,
      hrow last (mem_append_right _ mem_cons_self)⟩
    · rw [zipWith_append hinit]
      rfl
    · rw [map_zipWith]
      apply ext_getElem
      · simp [hinit]
      · intro i h1 h2
        rw [getElem_zipWith]
        rfl
    obtain ⟨i, hi, rfl⟩ := getElem_of_mem hs
    have hlt : i < init.length := lt_of_lt_of_le hi (length_zipWith ▸ Nat.min_le_left _ _)
    rw [getElem_zipWith]
    exact hrow init[i] (mem_append_left _ (getElem_mem _))
  unfold newEntries at hds
  split at hds
  case isTrue hlong =>
    obtain ⟨longs, hlongs, heq⟩ := map_eq_some_iff.mp hds
    obtain ⟨init, last, hzip, hmap, hinit, hlast⟩ := hslots longs heq.symm
    obtain ⟨hcollect, hstring⟩ := collect_lfnEntries hascii hne hlongs (fun _ => 0)
    refine ⟨init, ⟨some name, _⟩, hzip, ⟨hent.1, hent.2.1, hent.2.2.1, fun s hs => ?_, ?_⟩,
      rfl, fun m => ?_⟩
    · obtain ⟨hused, hislong⟩ := createLfn_used hlongs (hmap ▸ mem_map_of_mem hs)
      exact ⟨hused, hislong, (hinit s hs).trans hlast.symm⟩
    · rw [hmap]
      exact ⟨hcollect, hstring⟩
    · simp [File.Answers, Dirent.shortName]
  case isFalse hlong =>
  obtain ⟨hflag, hlen⟩ : short.2 = false ∧ ¬ name.length > 11 := by
    simpa using hlong
  obtain ⟨init, last, hzip, hmap, -, -⟩ := hslots [] (some.inj hds).symm
  obtain rfl : init = [] := map_eq_nil_iff.mp hmap
  -- The short name is the name itself.
  have hname : SameName (shortToName short.1) name := by
    rcases pickShortName_flag hshort with rfl | hflag'
    · refine shortToName_generate hflag (hdot.resolve_left ?_ |>.resolve_left hlen)
      rw [hflag]
      decide
    · rw [hflag] at hflag'
      cases hflag'
  refine ⟨[], ⟨none, _⟩, hzip, ⟨hent.1, hent.2.1, hent.2.2.1,
    fun s hs => absurd hs not_mem_nil, rfl⟩, rfl, fun m => ?_⟩
  have hiff : SameName name m → SameName (shortToName short.1) m := hname.trans
  simpa [File.Answers, Slot.withEntry, Dirent.shortName] using hiff

/-- An addition adds one file. -/
theorem WellFormed.add (h : WellFormed fs v dc files) (hne : name ≠ []) (hascii : IsAscii name)
    (hadds : AddsInOne fs v dc name) {attr} (hattr : attr &&& attrVolumeId = 0)
    (cluster size : Nat) : ∃ short v' f files1 files2, shortNameFor fs v dc name = some short ∧
      addDirEntry fs v dc name attr cluster size = some (vfsOk, v') ∧
      f.slot.entry = .short short.1 attr cluster size ∧
      (∀ m, f.Answers m ↔ SameName name m ∨ SameName (shortToName short.1) m) ∧
      files = files1 ++ files2 ∧ WellFormed fs v' dc (files1 ++ f :: files2) := by
  obtain ⟨habsent, hfits, short, hshort, halias, hdot, _, hstart, s, rfl, hinside⟩ := hadds
  have hneeded : 0 < entriesFor name short := Nat.succ_pos _
  obtain ⟨before, row, after, hslots, hlen, hrow, hpath⟩ :=
    findFree_row h.valid hneeded (findFreeInDir_spec hstart) (by omega)
  obtain ⟨ds, hds⟩ : ∃ ds, newEntries name short.1 short.2 attr cluster size = some ds := by
    unfold newEntries createLfn
    simp only [if_neg (not_lt.mpr hfits), map_some]
    split <;> exact ⟨_, rfl⟩
  have hdsSpec := newEntries_spec hds
  have hdsLength : ds.length = row.length := by
    obtain ⟨longs, rfl, hlongs, -⟩ := hdsSpec
    rw [hlen, length_append, hlongs]
    rfl
  obtain ⟨longs, f, hzip, hfile, hent, hanswers⟩ := isFile_newEntries hne hascii hshort hattr hdot
    hds hdsLength (hpath.cluster_eq (by omega))
  have hdsEnd : ∀ d ∈ ds, d.first ≠ direntEnd := by
    obtain ⟨dlongs, rfl, -, hdlongs⟩ := hdsSpec
    intro d hd
    rcases mem_append.mp hd with hd | hd
    · exact (hdlongs d hd).2
    obtain ⟨x, xs, hx, hcode⟩ := shortNameFor_first hshort
    rw [mem_singleton.mp hd, hx]
    exact first_short_ne_end hcode
  have hordered := h.ordered
  have hparsed := h.parsed
  rw [hslots] at hordered hparsed
  obtain ⟨files1, files2, rfl, hbef, hafter⟩ := hparsed.split_row hrow
    (ne_nil_of_length_pos (by omega))
  have hslots' := dirSlots_writeAt hslots hordered hrow hdsEnd hdsLength
  refine ⟨short, writeAt fs v (row.zip ds), f, files1, files2, hshort, ?_, hent, hanswers, rfl,
    h.valid, ?_, ?_, ?_⟩
  · have hspace : addSpace fs v dc name = some (short, some s, v) := by
      rw [addSpace, hshort]
      have hspace : findSpace fs v dc (entriesFor name short) = some (some s, v) := by
        rw [findSpace, hstart]
      exact map_eq_some_iff.mpr ⟨_, hspace, rfl⟩
    rw [addDirEntry, hspace]
    simp [hds, writeEntries_path hpath hdsLength]
  · rw [(writeAt_sameTable fs v _).fat]
    exact h.chain
  · rw [hslots', hzip, append_assoc, append_assoc, singleton_append]
    exact hbef.append (.file hfile hafter)
  -- No other file answers to the name or to its alias.
  have hnot : ∀ g ∈ files1 ++ files2, ∀ m, f.Answers m → ¬ g.Answers m := by
    intro g hg m hf hgm
    rcases (hanswers m).mp hf with hsame | hsame
    · exact h.not_answers habsent hg (hgm.congr hsame)
    · exact h.not_answers halias hg (hgm.congr hsame)
  obtain ⟨hd1, hd2, hd3⟩ := pairwise_append.mp h.distinct
  refine pairwise_append.mpr ⟨hd1, pairwise_cons.mpr ⟨fun g hg => ?_, hd2⟩, ?_⟩
  · exact hnot g (mem_append_right _ hg)
  intro g hg g' hg' m hm hm'
  rcases mem_cons.mp hg' with rfl | hg'
  · exact hnot g (mem_append_left _ hg) m hm' hm
  · exact hd3 g hg g' hg' m hm hm'

/-! ### Removals -/

/-- The walk along the directory meets each of its clusters. -/
theorem inChain_of_mem {cs e target} (hchain : Linked v.fat IsValid c cs e)
    (hmem : target ∈ cs) (hfuel : cs.length ≤ fuel) : inChain v target fuel c = some true := by
  induction hchain generalizing fuel with
  | nil => cases hmem
  | @cons c e cs hval hrest ih =>
    cases fuel with
    | zero => exact absurd hfuel (Nat.not_succ_le_zero _)
    | succ fuel =>
      rw [inChain, if_neg (not_not.mpr hval)]
      split
      · rfl
      case isFalse hne =>
      rw [getNext_of_valid hval]
      rcases mem_cons.mp hmem with rfl | hmem
      · exact absurd rfl hne
      · exact ih hmem (Nat.le_of_succ_le_succ hfuel)

/-- A removal marks the entries of a long name back to the first entry that is not one. -/
structure Marked (v v' : Volume) (c i : Nat) : Prop extends Removed v v' c i where
  stop : ∀ j k, j ≤ k → k < i → (v.dirs c k).isLong = false → v'.dirs c j = v.dirs c j
  marked : ∀ j, j < i → (∀ k, j ≤ k → k < i → (v.dirs c k).isLong = true) →
    v'.dirs c j = (v.dirs c j).markFree

theorem removeDirEntry_marked (fs : Layout) (index : Nat)
    (hin : inChain v c clusterLimit dc = some true) :
    ∃ v', removeDirEntry fs v dc c index = some (vfsOk, v') ∧
      Marked v v' c (index % fs.entriesPerCluster) := by
  have hremove : ∃ v', removeDirEntry fs v dc c index = some (vfsOk, v') ∧
      v'.dirs c = markLong (update (v.dirs c) (index % fs.entriesPerCluster)
        (v.dirs c (index % fs.entriesPerCluster)).markFree) (index % fs.entriesPerCluster) := by
    unfold removeDirEntry
    simp only [hin, if_true]
    exact ⟨_, rfl, update_self _ _ _⟩
  obtain ⟨v', hret, hdirs⟩ := hremove
  have hbelow : ∀ {i k : Nat}, k < i → update (v.dirs c) i (v.dirs c i).markFree k = v.dirs c k :=
    fun hk => update_of_ne (ne_of_lt hk) _ _
  refine ⟨v', hret, removeDirEntry_spec hret, fun j k hj hk hshort => ?_, fun j hj hall => ?_⟩
  · rw [hdirs, markLong_eq, if_neg fun h => ?_, hbelow (by omega)]
    have hlong := h.2 k hk hj
    rw [hbelow hk, hshort] at hlong
    cases hlong
  · rw [hdirs, markLong_eq, if_pos ⟨hj, fun k hki hk => (hbelow hki).symm ▸ hall k hk hki⟩,
      hbelow hj]

/-- Marking a free entry changes nothing. -/
theorem markFree_of_free (h : d.first = direntFree) : d.markFree = d := by
  cases d with
  | short name attr cluster size =>
    cases name with
    | nil => exact absurd (show (0 : Nat) = direntFree from h) (by decide)
    | cons x xs =>
      obtain rfl : x = direntFree := h
      rfl
  | long order checksum chars =>
    obtain rfl : order = direntFree := h
    rfl

section Removal

variable {before longs after : List Slot} {t : Slot}

section

variable (h : Marked v v' t.cluster (t.pos fs))
  (hslots : (dirSlots fs v clusterLimit dc 0).1 = before ++ (longs ++ t :: after))
include h hslots

section

variable (hordered : Ordered fs (before ++ (longs ++ t :: after)))
include hordered

/-- Nothing before the entries of a file changes when it is removed: a long name that is in
use before them has its own short entry, where the marking stops. -/
theorem Marked.refresh_before (hpath : Path fs v dc 0 (before ++ (longs ++ t :: after)))
    (hparsed : Parsed before files) (hu : u ∈ before) : u.refresh fs v' = u := by
  have hent : ∀ w ∈ before, w.entry = v.dirs w.cluster (w.pos fs) := fun w hw =>
    (mem_dirSlots (dvd_zero _) (hslots ▸ mem_append_left _ hw)).2
  have hlt : ∀ w ∈ before, w.cluster = t.cluster → w.pos fs < t.pos fs := fun w hw =>
    (pairwise_append.mp hordered).2.2 w hw t (by simp)
  refine refresh_eq (hslots ▸ mem_append_left _ hu) ?_
  by_cases hc : u.cluster = t.cluster
  case neg => rw [h.others _ hc]
  rw [hc]
  obtain hsame | ⟨-, hlong, hmark⟩ := h.longs (u.pos fs) (ne_of_lt (hlt u hu hc))
  · exact hsame
  rw [← hc, ← hent u hu] at hlong hmark
  rw [← hc, ← hent u hu]
  by_cases hfree : u.entry.first = direntFree
  · rw [hmark, markFree_of_free hfree]
  obtain ⟨init, rest, rfl⟩ := append_of_mem hu
  obtain ⟨w, hw, hshort⟩ := hparsed.exists_short hlong hfree
  have hwmem : w ∈ init ++ u :: rest := by simp [hw]
  have hassoc : init ++ u :: rest ++ (longs ++ t :: after) =
      init ++ u :: (rest ++ longs) ++ t :: after := by simp
  have huw : u.cluster = w.cluster → u.pos fs < w.pos fs :=
    (pairwise_cons.mp (Ordered.suffix (pairwise_append.mp hordered).1)).1 w hw
  rw [hassoc] at hpath hordered
  have hwc : w.cluster = t.cluster := (between hpath hordered hc).1 w (by simp [hw])
  rw [hent u hu, hc]
  refine h.stop (u.pos fs) (w.pos fs) (le_of_lt (huw (hc.trans hwc.symm))) (hlt w hwmem hwc) ?_
  rw [← hwc, ← hent w hwmem]
  exact hshort

/-- The entries of the long name of a file that is removed are free. -/
theorem Marked.refresh_long (hpath : Path fs v dc 0 (before ++ (longs ++ t :: after)))
    (hlongs : ∀ u ∈ longs, u.entry.isLong = true ∧ u.cluster = t.cluster) (hu : u ∈ longs) :
    (u.refresh fs v').entry.first = direntFree := by
  have hslot : ∀ w ∈ longs, Listed fs v w.cluster (w.pos fs) ∧
      w.entry = v.dirs w.cluster (w.pos fs) := fun w hw =>
    mem_dirSlots (dvd_zero _) (hslots ▸ mem_append_right _ (mem_append_left _ hw))
  have hlt : u.pos fs < t.pos fs :=
    (pairwise_append.mp hordered.suffix).2.2 u hu t mem_cons_self (hlongs u hu).2
  have hmark : v'.dirs t.cluster (u.pos fs) = (v.dirs t.cluster (u.pos fs)).markFree := by
    refine h.marked (u.pos fs) hlt fun k hk hkt => ?_
    obtain ⟨init, rest, rfl⟩ := append_of_mem hu
    have hassoc : before ++ (init ++ u :: rest ++ t :: after) =
        (before ++ init) ++ u :: rest ++ t :: after := by simp
    rw [hassoc] at hpath hordered
    obtain ⟨w, hw, hwc, rfl⟩ := (between hpath hordered (hlongs u hu).2).2 k hk hkt
    have hwmem : w ∈ init ++ u :: rest := mem_append_right _ hw
    rw [← hwc, ← (hslot w hwmem).2]
    exact (hlongs w hwmem).1
  show (v'.dirs u.cluster (u.pos fs)).first = direntFree
  rw [(hlongs u hu).2, hmark]
  refine first_markFree ?_
  rw [← (hlongs u hu).2]
  exact (hslot u hu).1.first_ne

/-- Nothing after the entries of a file changes when it is removed. -/
theorem Marked.refresh_after (hu : u ∈ after) : u.refresh fs v' = u := by
  have hmem : u ∈ (dirSlots fs v clusterLimit dc 0).1 := by simp [hslots, hu]
  refine refresh_eq hmem ?_
  by_cases hc : u.cluster = t.cluster
  case neg => rw [h.others _ hc]
  have hlt : t.pos fs < u.pos fs := (pairwise_cons.mp hordered.suffix.suffix).1 u hu hc.symm
  rw [hc]
  refine (h.longs (u.pos fs) (ne_of_gt hlt)).resolve_right fun hmark => ?_
  exact absurd hmark.1 (lt_asymm hlt)

end

end

end Removal

/-- A removal takes one file away. -/
theorem WellFormed.remove (h : WellFormed fs v dc files) (hf : f ∈ files) :
    ∃ v' files1 files2, removeDirEntry fs v dc f.slot.cluster f.slot.index = some (vfsOk, v') ∧
      files = files1 ++ f :: files2 ∧ WellFormed fs v' dc (files1 ++ files2) := by
  have hdvd : fs.entriesPerCluster ∣ 0 := dvd_zero _
  obtain ⟨before, longs, after, files1, files2, hslots, rfl, hfile, hbef, hafter⟩ := h.parsed.mem hf
  obtain ⟨cs, e, hchain⟩ := h.chain
  have hslot : f.slot ∈ (dirSlots fs v clusterLimit dc 0).1 := by simp [hslots]
  have hpath := h.path
  have hordered := h.ordered
  rw [hslots] at hpath hordered
  obtain ⟨v', hret, hmarked⟩ := removeDirEntry_marked fs f.slot.index
    (inChain_of_mem hchain (cluster_mem_chain hchain hslot)
      (le_trans (hchain.length_le Owned.isValid_lt) (by decide)))
  have hmarked : Marked v v' f.slot.cluster (f.slot.pos fs) := hmarked
  have hlst := (mem_dirSlots hdvd hslot).1
  have hends : SameEnds v v' := fun b j => (hmarked.fromSlot (o := false) hlst b j).1
  refine ⟨v', files1, files2, hret, rfl, h.valid, ?_, ?_, ?_⟩
  · rw [hmarked.fat]
    exact h.chain
  · have hfree : (f.slot.refresh fs v').entry.first = direntFree := by
      show (v'.dirs f.slot.cluster (f.slot.pos fs)).first = direntFree
      rw [hmarked.slot]
      exact first_markFree hlst.first_ne
    have hskipped : ∀ u ∈ longs.map (Slot.refresh fs v'), Skipped u := by
      intro u hu
      obtain ⟨w, hw, rfl⟩ := mem_map.mp hu
      exact .inl (hmarked.refresh_long hslots hordered hpath (fun s hs => (hfile.parts s hs).2) hw)
    have hsame1 : before.map (Slot.refresh fs v') = before :=
      (map_congr_left fun u hu =>
        hmarked.refresh_before hslots hordered hpath hbef hu).trans (map_id' before)
    have hsame2 : after.map (Slot.refresh fs v') = after :=
      (map_congr_left fun u => hmarked.refresh_after hslots hordered).trans (map_id' after)
    rw [hends.dirSlots hmarked.fat hdvd, hslots]
    simp only [map_append, map_cons, hsame1, hsame2]
    exact hbef.append ((Parsed.of_skipped hskipped).append (.skip (.inl hfree) hafter))
  · exact h.distinct.sublist ((sublist_cons_self f files2).append_left files1)

/-! ### Lookups after an operation -/

namespace WellFormed

theorem not_answers_other {files1 files2} (h : WellFormed fs v dc (files1 ++ f :: files2))
    (hg : g ∈ files1 ++ files2) (hf : f.Answers m) : ¬ g.Answers m := by
  obtain ⟨-, hd2, hd3⟩ := pairwise_append.mp h.distinct
  rcases mem_append.mp hg with hg | hg
  · exact fun hgm => hd3 g hg f mem_cons_self m hgm hf
  · exact (pairwise_cons.mp hd2).1 g hg m hf

/-- A name belongs to one file at most. -/
theorem unique (h : WellFormed fs v dc files) (hf : f ∈ files) (hg : g ∈ files) (hfm : f.Answers m)
    (hgm : g.Answers m) : g = f := by
  obtain ⟨files1, files2, rfl⟩ := append_of_mem hf
  rcases mem_cons.mp (perm_middle.mem_iff.mp hg) with heq | hg
  · exact heq
  · exact absurd hgm (h.not_answers_other hg hfm)

/-- A file is found under the names it answers to. -/
theorem findInDir_iff (h : WellFormed fs v dc files) (hf : f ∈ files) :
    findInDir fs v dc m = some (some f.slot) ↔ f.Answers m := by
  rw [h.findInDir_eq, some.injEq]
  constructor
  · intro hfind
    obtain ⟨g, hg, hslot⟩ := map_eq_some_iff.mp hfind
    have hgm : g.Answers m := by simpa using find?_some hg
    -- Files with the same slot both answer to its short name.
    obtain rfl : g = f := by
      refine h.unique hf (mem_of_find?_eq_some hg) (.inr rfl) (.inr ?_)
      rw [hslot]
      rfl
    exact hgm
  intro hfm
  obtain ⟨g, hg⟩ : ∃ g, files.find? (fun f => decide (f.Answers m)) = some g := by
    refine isSome_iff_exists.mp (find?_isSome.mpr ⟨f, hf, ?_⟩)
    exact decide_eq_true hfm
  have hgm : g.Answers m := by simpa using find?_some hg
  rw [hg, h.unique hf (mem_of_find?_eq_some hg) hfm hgm]
  rfl

end WellFormed

/-- The addition of a name succeeds. Then the name and its alias lead to the new entry, and
all other names to where they led before. -/
def AddsName (fs : Layout) (v : Volume) (dc : Nat) (name : List Nat) (attr cluster size : Nat) :
    Prop :=
  ∃ short v' s, shortNameFor fs v dc name = some short ∧
    addDirEntry fs v dc name attr cluster size = some (vfsOk, v') ∧
    s.entry = .short short.1 attr cluster size ∧ findInDir fs v' dc name = some (some s) ∧
    findInDir fs v' dc (shortToName short.1) = some (some s) ∧
    ∀ m, ¬ SameName name m → ¬ SameName (shortToName short.1) m →
      findInDir fs v' dc m = findInDir fs v dc m

/-- The removal of an entry succeeds. Then the names that led to it are not found, and all
other names lead to where they led before. -/
def RemovesSlot (fs : Layout) (v : Volume) (dc : Nat) (s : Slot) : Prop :=
  ∃ v', removeDirEntry fs v dc s.cluster s.index = some (vfsOk, v') ∧
    ∀ m, (findInDir fs v dc m = some (some s) → findInDir fs v' dc m = some none) ∧
      (findInDir fs v dc m ≠ some (some s) → findInDir fs v' dc m = findInDir fs v dc m)

theorem WellFormed.addsName (h : WellFormed fs v dc files) (hne : name ≠ []) (hascii : IsAscii name)
    (hadds : AddsInOne fs v dc name) {attr} (hattr : attr &&& attrVolumeId = 0)
    (cluster size : Nat) : AddsName fs v dc name attr cluster size := by
  obtain ⟨short, v', f, files1, files2, hshort, hadd, hent, hanswers, rfl, h'⟩ :=
    h.add hne hascii hadds hattr cluster size
  have hf : f ∈ files1 ++ f :: files2 := mem_append_right _ mem_cons_self
  refine ⟨short, v', f.slot, hshort, hadd, hent, (h'.findInDir_iff hf).mpr ?_,
    (h'.findInDir_iff hf).mpr ?_, fun m hname halias => ?_⟩
  · exact (hanswers name).mpr (.inl rfl)
  · exact (hanswers _).mpr (.inr rfl)
  · have hnot : ¬ f.Answers m := fun hm => ((hanswers m).mp hm).elim hname halias
    rw [h'.findInDir_eq, h.findInDir_eq, find_other hnot]

theorem WellFormed.removesSlot (h : WellFormed fs v dc files)
    (hfind : findInDir fs v dc name = some (some s)) : RemovesSlot fs v dc s := by
  rw [h.findInDir_eq, some.injEq] at hfind
  obtain ⟨f, hf, rfl⟩ := map_eq_some_iff.mp hfind
  have hmem := mem_of_find?_eq_some hf
  obtain ⟨v', files1, files2, hret, rfl, h'⟩ := h.remove hmem
  refine ⟨v', hret, fun m => ⟨fun hm => ?_, fun hm => ?_⟩⟩
  · -- No other file answers to the name.
    have hfm := (h.findInDir_iff hmem).mp hm
    rw [h'.findInDir_eq, some.injEq, map_eq_none_iff, find?_eq_none]
    intro g hg
    simpa using h.not_answers_other hg hfm
  · have hnot : ¬ f.Answers m := fun hfm => hm ((h.findInDir_iff hmem).mpr hfm)
    rw [h'.findInDir_eq, h.findInDir_eq, find_other hnot]

/-! ### Runs of additions and removals -/

/-- An addition of a file or a directory with its first cluster and its size, or a removal. -/
inductive NameCall where
  | add (name : List Nat) (isDir : Bool) (cluster size : Nat)
  | remove (name : List Nat)

namespace NameCall

/-- The attributes that `fat32_dir_create` and `fat32_dir_mkdir` give. -/
def attr (isDir : Bool) : Nat := if isDir then attrDirectory else attrArchive

theorem attr_volumeId (isDir : Bool) : attr isDir &&& attrVolumeId = 0 := by
  cases isDir <;> rfl

/-- The directory after a call. A removal is of the entry that the name leads to. -/
def step (fs : Layout) (dc : Nat) (v : Volume) : NameCall → Option Volume
  | add name isDir cluster size => (addDirEntry fs v dc name (attr isDir) cluster size).map Prod.snd
  | remove name =>
    match findInDir fs v dc name with
    | none => none
    | some none => some v
    | some (some s) => (removeDirEntry fs v dc s.cluster s.index).map Prod.snd

/-- Additions are of ASCII names, and find their entries in the first cluster. -/
def Careful (fs : Layout) (dc : Nat) (v : Volume) : NameCall → Prop
  | add name .. => name ≠ [] ∧ IsAscii name ∧ AddsInOne fs v dc name
  | remove _ => True

instance (fs : Layout) (dc : Nat) (v : Volume) (call : NameCall) :
    Decidable (call.Careful fs dc v) := by
  unfold Careful
  split <;> infer_instance

end NameCall

/-- A directory stays well formed. -/
theorem WellFormed.step (h : ∃ files, WellFormed fs v dc files) {call : NameCall}
    (hcare : call.Careful fs dc v) (hstep : call.step fs dc v = some v') :
    ∃ files, WellFormed fs v' dc files := by
  obtain ⟨files, h⟩ := h
  cases call with
  | add name isDir cluster size =>
    obtain ⟨hne, hascii, hadds⟩ := hcare
    obtain ⟨short, v1, f, files1, files2, -, hadd, -, -, -, h'⟩ :=
      h.add hne hascii hadds (NameCall.attr_volumeId isDir) cluster size
    simp only [NameCall.step, hadd, map_some, some.injEq] at hstep
    subst hstep
    exact ⟨_, h'⟩
  | remove name =>
    simp only [NameCall.step] at hstep
    split at hstep
    · cases hstep
    · cases hstep
      exact ⟨files, h⟩
    case h_3 s hfind =>
    rw [h.findInDir_eq, some.injEq] at hfind
    obtain ⟨f, hf, rfl⟩ := map_eq_some_iff.mp hfind
    obtain ⟨v1, files1, files2, hret, -, h'⟩ := h.remove (mem_of_find?_eq_some hf)
    rw [hret] at hstep
    cases hstep
    exact ⟨_, h'⟩

/-- After every run of additions, each of an absent name whose entries fit into the first
cluster, and removals, from a well-formed directory on: such an addition and every removal
succeed and change lookups as they should. -/
theorem lookups_after_run {v₀ : Volume} (hstart : WellFormed fs v₀ dc files)
    {calls : List NameCall} (hrun : GuardedRun (fun v call => call.step fs dc v)
      (fun v call => call.Careful fs dc v) v₀ calls v) :
    (∀ name isDir cluster size, (NameCall.add name isDir cluster size).Careful fs dc v →
      AddsName fs v dc name (NameCall.attr isDir) cluster size) ∧
    ∀ name s, findInDir fs v dc name = some (some s) → RemovesSlot fs v dc s := by
  obtain ⟨files', h⟩ := hrun.inv (fun v => ∃ files, WellFormed fs v dc files)
    (fun _ _ _ h hcareful hstep => WellFormed.step h hcareful hstep) ⟨files, hstart⟩
  constructor
  · rintro name isDir cluster size ⟨hne, hascii, hadds⟩
    exact h.addsName hne hascii hadds (NameCall.attr_volumeId isDir) cluster size
  · intro name s hfind
    exact h.removesSlot hfind

open Mount (smallFs emptyVolume)

theorem wellFormed_emptyVolume : WellFormed smallFs emptyVolume 2 [] where
  valid := by decide
  chain := ⟨[2], eoc, .cons (by decide) (.nil (by decide))⟩
  parsed := by
    refine Parsed.of_skipped fun s hs => .inl ?_
    have hclus : s.cluster = 2 := by
      have hchain : Linked emptyVolume.fat IsValid 2 [2] eoc := .cons (by decide) (.nil (by decide))
      exact mem_singleton.mp (cluster_mem_chain hchain hs)
    rw [(mem_dirSlots (dvd_zero _) hs).2, hclus]
    rfl
  distinct := List.Pairwise.nil

/-- `a` and `long name.text` are added, and `a` is removed. -/
def addAndRemove : List NameCall :=
  [.add [97] false 0 0,
    .add [108, 111, 110, 103, 32, 110, 97, 109, 101, 46, 116, 101, 120, 116] true 3 0,
    .remove [97]]

/-- Then `b` can be added, and what `LONG NAME.TEXT` leads to can be removed. -/
theorem lookups_after_addAndRemove : ∃ v s, AddsName smallFs v 2 [98] attrArchive 0 0 ∧
      findInDir smallFs v 2 [76, 79, 78, 71, 32, 78, 65, 77, 69, 46, 84, 69, 88, 84] =
        some (some s) ∧ RemovesSlot smallFs v 2 s := by
  obtain ⟨v, hrun, hadds, r, hr, hslot⟩ : ∃ v, GuardedRun (fun v call => call.step smallFs 2 v)
      (NameCall.Careful smallFs 2) emptyVolume addAndRemove v ∧
        NameCall.Careful smallFs 2 v (.add [98] false 0 0) ∧ ∃ r,
          findInDir smallFs v 2 [76, 79, 78, 71, 32, 78, 65, 77, 69, 46, 84, 69, 88, 84] = some r ∧
            r.isSome := by
    decide +kernel
  obtain ⟨s, rfl⟩ := isSome_iff_exists.mp hslot
  obtain ⟨hadd, hremove⟩ := lookups_after_run wellFormed_emptyVolume hrun
  exact ⟨v, s, hadd _ false _ _ hadds, hr, hremove _ s hr⟩

/-- A root directory as it is made: all entries are zero. -/
def zeroVolume : Volume := { emptyVolume with dirs := fun _ _ => .zero }

/-- The first addition to an empty directory fails, although there are free clusters: the
search sees no entry from the end mark on, neither before nor after the directory has grown. -/
theorem add_to_empty_fails : WellFormed smallFs zeroVolume 2 [] ∧ zeroVolume.fat 3 = freeMark ∧
      findInDir smallFs zeroVolume 2 [97] = some none ∧
      (addDirEntry smallFs zeroVolume 2 [97] attrArchive 0 0).map Prod.fst = some vfsEnospc := by
  refine ⟨⟨by decide, ⟨[2], eoc, .cons (by decide) (.nil (by decide))⟩, ?_, .nil⟩, by decide,
    by decide +kernel, by decide +kernel⟩
  exact .nil

end Kurios.Fat32
