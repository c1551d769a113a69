import Kurios.Fat32.LongNames

/-!
What lookups in a FAT32 directory find.

The slots of a directory in order are free entries, volume labels and files, a file being the
entries of a long name, if it has one, and a short entry (`Parsed`). A lookup finds the first
file that answers to the name (`find_parsed`). Additions put a file in place of free entries
and removals put free entries in place of a file, if these lie in one cluster.
-/

namespace Kurios.Fat32

open Base List

variable {s t : Slot} {after before slots : List Slot}
  {fs : Layout} {v v' : Volume} {c base fuel : Nat} {cs : List Nat} {e : Nat}

/-! ### The order of slots -/

/-- Slots of one cluster come in the order of their indices. -/
def Ordered (fs : Layout) (slots : List Slot) : Prop :=
  slots.Pairwise fun s t => s.cluster = t.cluster → s.pos fs < t.pos fs

theorem ordered_clusterSlots (hbase : fs.entriesPerCluster ∣ base) :
    Ordered fs (clusterSlots fs v c base) := by
  obtain ⟨k, hk, heq, -⟩ := clusterSlots_eq fs v c base
  rw [Ordered, heq, pairwise_map]
  refine pairwise_lt_range.imp_of_mem fun {i j} hi hj hlt _ => ?_
  have hj := mem_range.mp hj
  rw [pos_mk hbase (by omega), pos_mk hbase (by omega)]
  exact hlt

section

variable (hchain : Linked v.fat IsValid c cs e)
include hchain

/-- The slots of a directory are in its clusters. -/
theorem cluster_mem_chain (hs : s ∈ (dirSlots fs v fuel c base).1) : s.cluster ∈ cs := by
  induction hchain generalizing fuel base with
  | nil hinv =>
    cases fuel with
    | zero => cases hs
    | succ fuel =>
      rw [dirSlots, if_pos hinv] at hs
      cases hs
  | @cons c e cs hval hrest ih =>
    have hclus : ∀ {base}, s ∈ clusterSlots fs v c base → s.cluster ∈ c :: cs := by
      intro base hs
      obtain ⟨i, -, rfl⟩ := mem_clusterSlots.mp hs
      exact mem_cons_self
    cases fuel with
    | zero => cases hs
    | succ fuel =>
      rw [dirSlots, if_neg (not_not.mpr hval), getNext_of_valid hval] at hs
      split at hs
      · exact hclus hs
      · rcases mem_append.mp hs with hs | hs
        · exact hclus hs
        · exact mem_cons_of_mem _ (ih hs)

theorem ordered_dirSlots (hbase : fs.entriesPerCluster ∣ base) :
    Ordered fs (dirSlots fs v fuel c base).1 := by
  have hnd := hchain.nodup
  induction hchain generalizing fuel base with
  | nil hinv =>
    cases fuel with
    | zero => exact List.Pairwise.nil
    | succ fuel =>
      rw [dirSlots, if_pos hinv]
      exact List.Pairwise.nil
  | @cons c e cs hval hrest ih =>
    obtain ⟨hnot, hnd⟩ := nodup_cons.mp hnd
    cases fuel with
    | zero => exact List.Pairwise.nil
    | succ fuel =>
      rw [dirSlots, if_neg (not_not.mpr hval), getNext_of_valid hval]
      split
      · exact ordered_clusterSlots hbase
      refine pairwise_append.mpr ⟨ordered_clusterSlots hbase,
        ih (dvd_add hbase (dvd_refl _)) hnd, fun s hs t ht heq => ?_⟩
      -- The clusters of the rest come later in the chain.
      obtain ⟨i, -, rfl⟩ := mem_clusterSlots.mp hs
      have hmem := cluster_mem_chain hrest ht
      rw [← heq] at hmem
      exact absurd hmem hnot

/-- The walk over a directory ends. -/
theorem complete_dirSlots (hfuel : cs.length < fuel) : (dirSlots fs v fuel c base).2 = true := by
  induction hchain generalizing fuel base with
  | nil hinv =>
    cases fuel with
    | zero => exact absurd hfuel (Nat.not_lt_zero _)
    | succ fuel => rw [dirSlots, if_pos hinv]
  | @cons c e cs hval hrest ih =>
    cases fuel with
    | zero => exact absurd hfuel (Nat.not_lt_zero _)
    | succ fuel =>
      rw [dirSlots, if_neg (not_not.mpr hval), getNext_of_valid hval]
      split
      · rfl
      · exact ih (Nat.lt_of_succ_lt_succ hfuel)

theorem complete_of_chain : (dirSlots fs v clusterLimit c 0).2 = true := by
  refine complete_dirSlots hchain (lt_of_le_of_lt (hchain.length_le Owned.isValid_lt) ?_)
  decide

end

theorem Ordered.suffix (h : Ordered fs (before ++ after)) :
    Ordered fs after := (pairwise_append.mp h).2.1

/-- Two slots with one position are the same one. -/
theorem Ordered.ne_of_append (h : Ordered fs (before ++ after)) (hs : s ∈ before) (ht : t ∈ after) :
    ¬ (s.cluster = t.cluster ∧ s.pos fs = t.pos fs) := by
  rintro ⟨hclus, hpos⟩
  exact absurd ((pairwise_append.mp h).2.2 s hs t ht hclus) (not_lt.mpr (le_of_eq hpos.symm))

/-- Between two slots of one cluster stand the slots with the indices between. -/
theorem between {middle c i} (hpath : Path fs v c i (before ++ s :: middle ++ t :: after))
    (hord : Ordered fs (before ++ s :: middle ++ t :: after)) (hclus : s.cluster = t.cluster) :
    (∀ u ∈ middle, u.cluster = t.cluster) ∧
      ∀ k, s.pos fs ≤ k → k < t.pos fs →
        ∃ u ∈ s :: middle, u.cluster = t.cluster ∧ u.pos fs = k := by
  have hltpos : t.pos fs < fs.entriesPerCluster := Nat.mod_lt _ fs.entriesPerCluster_pos
  induction middle generalizing before s with
  | nil =>
    refine ⟨fun u hu => absurd hu not_mem_nil, fun k hk hk' => ⟨s, mem_cons_self, hclus, ?_⟩⟩
    rw [append_assoc] at hpath
    obtain ⟨-, hnext, -⟩ := hpath.suffix
    rw [if_pos (by omega)] at hnext
    omega
  | cons u middle ih =>
    have hassoc : before ++ s :: u :: middle ++ t :: after =
        (before ++ [s]) ++ u :: middle ++ t :: after := by simp
    have hordered' := hord
    rw [append_assoc, cons_append] at hpath hordered'
    have hlt : s.pos fs < t.pos fs := by
      have hpair := (pairwise_cons.mp hordered'.suffix).1
      exact hpair t (by simp) hclus
    obtain ⟨-, hnext, -⟩ := hpath.suffix
    rw [if_pos (by omega)] at hnext
    obtain ⟨hu, hupos⟩ := hnext
    rw [← cons_append, ← append_assoc, hassoc] at hpath
    rw [hassoc] at hord
    obtain ⟨hall, hcover⟩ := ih hpath hord (hu.trans hclus)
    refine ⟨fun w hw => ?_, fun k hk hk' => ?_⟩
    · rcases mem_cons.mp hw with rfl | hw
      · exact hu.trans hclus
      · exact hall w hw
    rcases Nat.lt_or_eq_of_le hk with hk | rfl
    · obtain ⟨w, hw, hrest⟩ := hcover k (by omega) hk'
      exact ⟨w, mem_cons_of_mem _ hw, hrest⟩
    · exact ⟨s, mem_cons_self, hclus, rfl⟩

/-! ### Files -/

/-- A file of a directory: its long name, if it has one, and its short entry. -/
structure File where
  long : Option (List Nat)
  slot : Slot

/-- The short name of an entry. -/
def Dirent.shortName : Dirent → List Nat
  | short name .. => name
  | long .. => []

/-- A lookup of this name finds the file. -/
def File.Answers (f : File) (m : List Nat) : Prop :=
  (∃ l, f.long = some l ∧ SameName l m) ∨ SameName (shortToName f.slot.entry.shortName) m
deriving Decidable

/-- The entries of a file: those of the long name give back the name, and all are in one
cluster. -/
structure IsFile (longs : List Slot) (f : File) : Prop where
  used : f.slot.entry.first ≠ direntFree
  short : f.slot.entry.isLong = false
  notLabel : f.slot.entry.isLabel = false
  parts : ∀ s ∈ longs, s.entry.first ≠ direntFree ∧ s.entry.isLong = true ∧
    s.cluster = f.slot.cluster
  name : match f.long with
    | none => longs = []
    | some l => collect (fun _ => 0) (longs.map Slot.entry) 0 ≠ 0 ∧
      longString (collect (fun _ => 0) (longs.map Slot.entry)) = l

/-- An entry that lookups pass over. -/
def Skipped (s : Slot) : Prop :=
  s.entry.first = direntFree ∨ (s.entry.isLong = false ∧ s.entry.isLabel = true)

/-- The slots are those of some files, and others that are passed over. -/
inductive Parsed : List Slot → List File → Prop
  | nil : Parsed [] []
  | skip {s : Slot} {slots : List Slot} {files : List File} (hs : Skipped s)
    (hrest : Parsed slots files) : Parsed (s :: slots) files
  | file {longs slots : List Slot} {f : File} {files : List File} (hf : IsFile longs f)
    (hrest : Parsed slots files) : Parsed (longs ++ f.slot :: slots) (f :: files)

variable {files : List File}

theorem Parsed.append {slots' files'} (h : Parsed slots files)
    (h' : Parsed slots' files') : Parsed (slots ++ slots') (files ++ files') := by
  induction h with
  | nil => exact h'
  | skip hs _ ih => exact .skip hs ih
  | @file longs slots f files hf _ ih =>
    rw [append_assoc, cons_append]
    exact .file hf ih

theorem Parsed.of_skipped (h : ∀ s ∈ slots, Skipped s) : Parsed slots [] := by
  induction slots with
  | nil => exact .nil
  | cons s slots ih => exact .skip (h s mem_cons_self) (ih fun t ht => h t (mem_cons_of_mem _ ht))

/-- A slot is passed over, or is among those of a file. -/
theorem Parsed.slot_cases (h : Parsed (before ++ s :: after) files) :
    (Skipped s ∧ ∃ files1 files2, files = files1 ++ files2 ∧ Parsed before files1 ∧
      Parsed after files2) ∨
    ∃ longs f init rest after', IsFile longs f ∧ longs ++ [f.slot] = init ++ s :: rest ∧
      after = rest ++ after' := by
  generalize hslots : before ++ s :: after = slots at h
  induction h generalizing before with
  | nil => exact absurd hslots (by simp)
  | @skip t slots files ht hrest ih =>
    cases before with
    | nil =>
      obtain ⟨rfl, rfl⟩ := cons.inj hslots
      exact .inl ⟨ht, [], files, rfl, .nil, hrest⟩
    | cons u before =>
      obtain ⟨rfl, hrow⟩ := cons.inj hslots
      refine (ih hrow).imp_left ?_
      rintro ⟨hs, files1, files2, rfl, h1, h2⟩
      exact ⟨hs, files1, files2, rfl, .skip ht h1, h2⟩
  | @file longs slots f files hf hrest ih =>
    have hslots' : before ++ s :: after = (longs ++ [f.slot]) ++ slots := by
      rw [hslots, append_assoc, singleton_append]
    have hlater : ∀ {rest}, rest ++ s :: after = slots → before = longs ++ [f.slot] ++ rest →
        (Skipped s ∧ ∃ files1 files2, f :: files = files1 ++ files2 ∧ Parsed before files1 ∧
          Parsed after files2) ∨
        ∃ longs f init rest after', IsFile longs f ∧ longs ++ [f.slot] = init ++ s :: rest ∧
          after = rest ++ after' := by
      intro rest hrest hbef
      refine (ih hrest).imp_left ?_
      rintro ⟨hs, files1, files2, rfl, h1, h2⟩
      refine ⟨hs, f :: files1, files2, rfl, ?_, h2⟩
      rw [hbef, append_assoc, singleton_append]
      exact .file hf h1
    rcases append_eq_append_iff.mp hslots' with ⟨rest, hfile, hs'⟩ | ⟨rest, hbef, hslots''⟩
    · cases rest with
      | nil => exact @hlater [] hs' (by simpa using hfile.symm)
      | cons u rest =>
        obtain ⟨rfl, rfl⟩ := cons.inj hs'
        exact .inr ⟨longs, f, before, rest, slots, hf, hfile, rfl⟩
    · exact hlater hslots''.symm hbef

/-- Files end at a free entry. -/
theorem Parsed.split (h : Parsed (before ++ s :: after) files) (hs : s.entry.first = direntFree) :
    ∃ files1 files2, files = files1 ++ files2 ∧ Parsed before files1 ∧ Parsed after files2 := by
  obtain ⟨-, hsplit⟩ | ⟨longs, f, init, rest, -, hf, heq, -⟩ := h.slot_cases
  · exact hsplit
  have hmem : s ∈ longs ++ [f.slot] := by simp [heq]
  rcases mem_append.mp hmem with hmem | hmem
  · exact absurd hs (hf.parts s hmem).1
  · exact absurd hs (mem_singleton.mp hmem ▸ hf.used)

theorem Parsed.split_row {row} (h : Parsed (before ++ row ++ after) files)
    (hrow : ∀ s ∈ row, s.entry.first = direntFree) (hne : row ≠ []) :
    ∃ files1 files2, files = files1 ++ files2 ∧ Parsed before files1 ∧ Parsed after files2 := by
  induction row generalizing before files with
  | nil => exact absurd rfl hne
  | cons s row ih =>
    rw [append_assoc, cons_append] at h
    obtain ⟨files1, files2, rfl, h1, h2⟩ := h.split (hrow s mem_cons_self)
    cases row with
    | nil => exact ⟨files1, files2, rfl, h1, h2⟩
    | cons t row =>
      obtain ⟨files3, files4, rfl, h3, h4⟩ := @ih [] _ h2
        (fun u hu => hrow u (mem_cons_of_mem _ hu)) (cons_ne_nil _ _)
      refine ⟨files1 ++ files3, files4, (append_assoc _ _ _).symm, ?_, h4⟩
      rw [← append_nil before]
      exact h1.append h3

/-- Where the slots of a file are. -/
theorem Parsed.mem (h : Parsed slots files) {f} (hf : f ∈ files) :
    ∃ before longs after files1 files2, slots = before ++ (longs ++ f.slot :: after) ∧
      files = files1 ++ f :: files2 ∧ IsFile longs f ∧ Parsed before files1 ∧
        Parsed after files2 := by
  induction h with
  | nil => cases hf
  | @skip s slots files hs hrest ih =>
    obtain ⟨before, longs, after, files1, files2, rfl, rfl, hfile, h1, h2⟩ := ih hf
    exact ⟨s :: before, longs, after, files1, files2, rfl, rfl, hfile, .skip hs h1, h2⟩
  | @file longs slots g files hg hrest ih =>
    rcases mem_cons.mp hf with rfl | hf
    · exact ⟨[], longs, slots, [], files, rfl, rfl, hg, .nil, hrest⟩
    · obtain ⟨before, longs', after, files1, files2, rfl, rfl, hfile, h1, h2⟩ := ih hf
      exact ⟨longs ++ g.slot :: before, longs', after, g :: files1, files2, by simp, rfl, hfile,
        .file hg h1, h2⟩

/-- The entries of a long name that is in use come before a short entry. -/
theorem Parsed.exists_short (h : Parsed (before ++ s :: after) files)
    (hlong : s.entry.isLong = true) (hused : s.entry.first ≠ direntFree) :
    ∃ t ∈ after, t.entry.isLong = false := by
  obtain ⟨hfree | ⟨hshort, -⟩, -⟩ | ⟨longs, f, init, rest, after', hf, heq, rfl⟩ := h.slot_cases
  · exact absurd hfree hused
  · simp [hlong] at hshort
  -- The short entry of the file is in what follows, as `s` is not it.
  have hlast : f.slot ∈ s :: rest := by
    have hmem : (init ++ s :: rest).getLast? = some f.slot := by simp [← heq]
    rw [getLast?_append, getLast?_cons] at hmem
    refine mem_of_getLast? ?_
    rw [getLast?_cons]
    simpa using hmem
  rcases mem_cons.mp hlast with hs | hmem
  · have hshort := hf.short
    simp [hs, hlong] at hshort
  · exact ⟨f.slot, mem_append_left _ hmem, hf.short⟩

/-! ### Lookups -/

/-- Free entries and entries of long names only change the buffer. -/
theorem findIn_longs (m : List Nat) {longs} (buf : LongName) (slots : List Slot)
    (h : ∀ s ∈ longs, s.entry.first ≠ direntFree ∧ s.entry.isLong = true) :
    findIn m buf (longs ++ slots) = findIn m (collect buf (longs.map Slot.entry)) slots := by
  induction longs generalizing buf with
  | nil => rfl
  | cons s longs ih =>
    obtain ⟨hused, hlong⟩ := h s mem_cons_self
    have hrest := fun buf => ih buf fun t ht => h t (mem_cons_of_mem _ ht)
    rw [cons_append, findIn, if_neg hused]
    cases hent : s.entry with
    | short => simp [hent, Dirent.isLong] at hlong
    | long order checksum chars =>
      simp only [hrest, map_cons, hent]
      rfl

/-- A lookup finds the first file that answers to the name. -/
theorem find_parsed (h : Parsed slots files) (m : List Nat) :
    findIn m (fun _ => 0) slots = (files.find? fun f => decide (f.Answers m)).map File.slot := by
  induction h with
  | nil => rfl
  | @skip s slots files hs _ ih =>
    rw [findIn]
    split
    · exact ih
    case isFalse hused =>
    obtain ⟨hshort, hlabel⟩ := hs.resolve_left hused
    cases hent : s.entry with
    | long => simp [hent, Dirent.isLong] at hshort
    | short name attr cluster size =>
      rw [hent] at hlabel
      simp only [hlabel, if_true]
      exact ih
  | @file longs slots f files hf _ ih =>
    rw [findIn_longs m _ _ fun s hs => ⟨(hf.parts s hs).1, (hf.parts s hs).2.1⟩, findIn,
      if_neg hf.used]
    cases hent : f.slot.entry with
    | long =>
      have hshort := hf.short
      simp [hent, Dirent.isLong] at hshort
    | short name attr cluster size =>
      have hlabel := hf.notLabel
      rw [hent] at hlabel
      have hmatches : Matches (collect (fun _ => 0) (longs.map Slot.entry)) m name ↔
          f.Answers m := by
        have hname := hf.name
        unfold Matches File.Answers
        rw [hent]
        cases hl : f.long with
        | none =>
          rw [hl] at hname
          obtain rfl : longs = [] := hname
          simp [collect, Dirent.shortName]
        | some l =>
          rw [hl] at hname
          obtain ⟨hne, heq⟩ := hname
          simp [hne, heq, Dirent.shortName]
      simp only [hlabel, Bool.false_eq_true, if_false, hmatches, find?_cons]
      by_cases hanswers : f.Answers m
      · simp [hanswers]
      · simp [hanswers, ih]

end Kurios.Fat32
