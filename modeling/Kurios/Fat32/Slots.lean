import Kurios.Fat32.Dir

/-!
The entries of a directory as a list.

Every slot that `fat32_iterate_dir` shows stands before the end mark of its cluster, and
holds what the cluster holds at its local index (`mem_dirSlots`). Free entries in a row are a
part of the list (`findFree_spec`), and what is written from their first one on, if that is in
the first cluster of the directory, goes to them and nowhere else (`writeEntries_path`).
-/

namespace Kurios.Fat32

open Errno Function List

variable {i : Nat} {ss : List Slot} {fs : Layout} {v v' : Volume} {c base fuel : Nat} {s : Slot}

/-! ### One cluster -/

/-- Entry `i` stands before every end mark of its cluster. -/
def Listed (fs : Layout) (v : Volume) (c i : Nat) : Prop :=
  i < fs.entriesPerCluster ∧ ∀ j ≤ i, (v.dirs c j).first ≠ direntEnd
deriving Decidable

theorem Listed.first_ne (h : Listed fs v c i) : (v.dirs c i).first ≠ direntEnd :=
  h.2 i (le_refl i)

/-- The numbers that `takeWhile` keeps of a range are a range. -/
theorem takeWhile_range (p : Nat → Bool) (n : Nat) :
    ∃ k ≤ n, (range n).takeWhile p = range k ∧ (∀ i < k, p i = true) ∧ (k < n → p k = false) := by
  induction n with
  | zero => exact ⟨0, le_refl 0, rfl, by simp, by simp⟩
  | succ n ih =>
    obtain ⟨k, hk, heq, hall, hstop⟩ := ih
    rw [range_succ, takeWhile_append, heq, length_range, length_range]
    by_cases hkn : k = n
    · subst hkn
      rw [if_pos rfl]
      cases hp : p k
      · refine ⟨k, Nat.le_succ k, ?_, hall, fun _ => hp⟩
        rw [takeWhile_cons, hp]
        exact append_nil _
      refine ⟨k + 1, le_rfl, ?_, fun i hi => ?_, fun h => absurd h (lt_irrefl _)⟩
      · rw [takeWhile_cons, hp, range_succ]
        rfl
      · rcases Nat.lt_succ_iff_lt_or_eq.mp hi with hi | rfl
        · exact hall i hi
        · exact hp
    · rw [if_neg hkn]
      exact ⟨k, Nat.le_succ_of_le hk, rfl, hall, fun _ => hstop (lt_of_le_of_ne hk hkn)⟩

/-- The slots of a cluster are those of a first part of it. -/
theorem clusterSlots_eq (fs : Layout) (v : Volume) (c base : Nat) : ∃ k ≤ fs.entriesPerCluster,
      clusterSlots fs v c base = (range k).map (fun i => ⟨c, base + i, v.dirs c i⟩) ∧
        (∀ i, i < k ↔ Listed fs v c i) ∧ (k = fs.entriesPerCluster ↔ ¬ HasEnd fs v c) := by
  obtain ⟨k, hk, heq, hall, hstop⟩ :=
    takeWhile_range (fun i => decide ((v.dirs c i).first ≠ direntEnd)) fs.entriesPerCluster
  refine ⟨k, hk, ?_, fun i => ⟨fun hi => ⟨lt_of_lt_of_le hi hk, fun j hj => ?_⟩, fun hi => ?_⟩,
    fun hfull => ?_, fun hnone => ?_⟩
  · rw [clusterSlots, heq]
  · exact of_decide_eq_true (hall j (lt_of_le_of_lt hj hi))
  · by_contra hle
    have hend := of_decide_eq_false (hstop (lt_of_le_of_lt (not_lt.mp hle) hi.1))
    exact hend (hi.2 k (not_lt.mp hle))
  · rintro ⟨i, hi, hend⟩
    exact of_decide_eq_true (hall i (hfull ▸ hi)) hend
  · by_contra hne
    have hlt := lt_of_le_of_ne hk hne
    exact hnone ⟨k, hlt, not_not.mp (of_decide_eq_false (hstop hlt))⟩

theorem mem_clusterSlots :
    s ∈ clusterSlots fs v c base ↔ ∃ i, Listed fs v c i ∧ s = ⟨c, base + i, v.dirs c i⟩ := by
  obtain ⟨k, -, heq, hlst, -⟩ := clusterSlots_eq fs v c base
  rw [heq, mem_map]
  constructor <;> rintro ⟨i, hi, rfl⟩
  · exact ⟨i, (hlst i).mp (mem_range.mp hi), rfl⟩
  · exact ⟨i, mem_range.mpr ((hlst i).mpr hi), rfl⟩

/-! ### The whole directory -/

/-- The index of a slot in its cluster. -/
def Slot.pos (fs : Layout) (s : Slot) : Nat := s.index % fs.entriesPerCluster

theorem pos_mk (hbase : fs.entriesPerCluster ∣ base) (hi : i < fs.entriesPerCluster) (d : Dirent) :
    Slot.pos fs ⟨c, base + i, d⟩ = i := by
  rw [Slot.pos, Nat.add_mod, Nat.mod_eq_zero_of_dvd hbase, Nat.zero_add, Nat.mod_mod,
    Nat.mod_eq_of_lt hi]

/-- A slot of a directory holds what its cluster holds at its local index, before the end
mark. -/
theorem mem_dirSlots (hbase : fs.entriesPerCluster ∣ base)
    (hs : s ∈ (dirSlots fs v fuel c base).1) :
    Listed fs v s.cluster (s.pos fs) ∧ s.entry = v.dirs s.cluster (s.pos fs) := by
  have hclus : ∀ {c base : Nat}, fs.entriesPerCluster ∣ base → s ∈ clusterSlots fs v c base →
      Listed fs v s.cluster (s.pos fs) ∧ s.entry = v.dirs s.cluster (s.pos fs) := by
    intro c base hbase hs
    obtain ⟨i, hi, rfl⟩ := mem_clusterSlots.mp hs
    rw [pos_mk hbase hi.1]
    exact ⟨hi, rfl⟩
  induction fuel generalizing c base with
  | zero => cases hs
  | succ fuel ih =>
    rw [dirSlots] at hs
    split at hs
    · cases hs
    split at hs
    · exact hclus hbase hs
    · rcases mem_append.mp hs with hs | hs
      · exact hclus hbase hs
      · exact ih (dvd_add hbase (dvd_refl _)) hs

/-- A slot with what a volume holds there. -/
def Slot.refresh (fs : Layout) (v : Volume) (s : Slot) : Slot :=
  { s with entry := v.dirs s.cluster (s.pos fs) }

section Ends

variable (hends : ∀ i, (v'.dirs c i).first = direntEnd ↔ (v.dirs c i).first = direntEnd)

include hends

theorem listed_congr : Listed fs v' c i ↔ Listed fs v c i := by
  unfold Listed
  simp [hends]

theorem hasEnd_congr : HasEnd fs v' c ↔ HasEnd fs v c := by
  unfold HasEnd
  simp [hends]

end Ends

/-- End marks are where they were. -/
def SameEnds (v v' : Volume) : Prop :=
  ∀ c i, (v'.dirs c i).first = direntEnd ↔ (v.dirs c i).first = direntEnd

theorem getNext_congr (hfat : v'.fat = v.fat) (c : Nat) : getNext v' c = getNext v c := by
  rw [getNext, getNext, hfat]

theorem SameEnds.clusterSlots (h : SameEnds v v') (hbase : fs.entriesPerCluster ∣ base) :
    clusterSlots fs v' c base = (clusterSlots fs v c base).map (Slot.refresh fs v') := by
  unfold Fat32.clusterSlots
  simp only [ne_eq, h c, map_map]
  refine map_congr_left fun i hi => ?_
  have hi := mem_range.mp (takeWhile_subset _ hi)
  simp [Slot.refresh, pos_mk hbase hi]

/-- When the end marks and the chain stay, the slots of a directory are the same ones. -/
theorem SameEnds.dirSlots (h : SameEnds v v') (hfat : v'.fat = v.fat)
    (hbase : fs.entriesPerCluster ∣ base) : dirSlots fs v' fuel c base =
      ((dirSlots fs v fuel c base).1.map (Slot.refresh fs v'), (dirSlots fs v fuel c base).2) := by
  induction fuel generalizing c base with
  | zero => rfl
  | succ fuel ih =>
    rw [Fat32.dirSlots, Fat32.dirSlots]
    by_cases hc : IsValid c
    · rw [if_neg (not_not.mpr hc), if_neg (not_not.mpr hc)]
      by_cases hend : HasEnd fs v c
      · rw [if_pos hend, if_pos ((hasEnd_congr (h c)).mpr hend), h.clusterSlots hbase]
      · rw [if_neg hend, if_neg (mt (hasEnd_congr (h c)).mp hend), getNext_congr hfat,
          h.clusterSlots hbase,
          ih (dvd_add hbase (dvd_refl _)), map_append]
    · rw [if_pos hc, if_pos hc]
      rfl

/-! ### Free entries in a row -/

theorem findFree_spec {needed k start first} (acc : List Slot)
    (hfirst : findFree needed k start ss = some first) (hk : k < needed)
    (hends : ∀ s ∈ ss, s.entry.first ≠ direntEnd) (hlen : acc.length = k)
    (hhead : 0 < k → acc.head? = start) (hfree : ∀ s ∈ acc, s.entry.first = direntFree) :
    ∃ before row after, acc ++ ss = before ++ row ++ after ∧ row.length = needed ∧
      row.head? = some first ∧ ∀ s ∈ row, s.entry.first = direntFree := by
  induction ss generalizing k start acc with
  | nil => cases hfirst
  | cons s ss ih =>
    have hend := hends s mem_cons_self
    have hends' : ∀ s ∈ ss, s.entry.first ≠ direntEnd := fun s hs => hends s (mem_cons_of_mem _ hs)
    rw [findFree] at hfirst
    split at hfirst
    case isTrue hs =>
      have hs := hs.resolve_right hend
      have hhead' : (acc ++ [s]).head? = if k = 0 then some s else start := by
        cases acc with
        | nil => simp [← hlen]
        | cons a acc =>
          have hpos : 0 < k := by simp [← hlen]
          rw [if_neg (pos_iff_ne_zero.mp hpos), ← hhead hpos]
          rfl
      have hfree' : ∀ t ∈ acc ++ [s], t.entry.first = direntFree := by
        intro t ht
        rcases mem_append.mp ht with ht | ht
        · exact hfree t ht
        · rw [mem_singleton.mp ht, hs]
      have hlength' : (acc ++ [s]).length = k + 1 := by simp [hlen]
      simp only at hfirst
      split at hfirst
      case isTrue hdone =>
        have hneeded : k + 1 = needed := by
          omega
        refine ⟨[], acc ++ [s], ss, by simp, hlength'.trans hneeded, ?_, hfree'⟩
        rw [hhead', hfirst]
      case isFalse hmore =>
      have hlt : k + 1 < needed := not_le.mp fun hle => hmore (.inl hle)
      obtain ⟨before, row, after, heq, hrest⟩ :=
        ih _ hfirst hlt hends' hlength' (fun _ => hhead') hfree'
      refine ⟨before, row, after, ?_, hrest⟩
      rw [← heq, append_assoc, singleton_append]
    case isFalse hs =>
    obtain ⟨before, row, after, heq, hrest⟩ :=
      ih [] hfirst (Nat.zero_lt_of_lt hk) hends' rfl (fun h => absurd h (lt_irrefl 0))
        (fun _ h => by cases h)
    refine ⟨acc ++ s :: before, row, after, ?_, hrest⟩
    rw [nil_append] at heq
    simp [heq]

/-! ### Writing along the slots -/

/-- From index `i` of cluster `c` on, the loop that writes entries meets these slots. -/
def Path (fs : Layout) (v : Volume) : Nat → Nat → List Slot → Prop
  | _, _, [] => True
  | c, i, s :: ss =>
    (if i < fs.entriesPerCluster then s.cluster = c ∧ s.pos fs = i
      else IsValid (getNext v c) ∧ s.cluster = getNext v c ∧ s.pos fs = 0) ∧
    Path fs v s.cluster (s.pos fs + 1) ss

theorem path_congr (hfat : v'.fat = v.fat) : Path fs v' c i ss ↔ Path fs v c i ss := by
  induction ss generalizing c i with
  | nil => exact Iff.rfl
  | cons s ss ih => rw [Path, Path, getNext_congr hfat, ih]

/-- A path goes on behind a part of it. -/
theorem Path.suffix {before} (h : Path fs v c i (before ++ s :: ss)) :
    Path fs v s.cluster (s.pos fs) (s :: ss) := by
  induction before generalizing c i with
  | nil =>
    refine ⟨?_, h.2⟩
    rw [if_pos (show s.pos fs < fs.entriesPerCluster from Nat.mod_lt _ fs.entriesPerCluster_pos)]
    exact ⟨rfl, rfl⟩
  | cons t before ih => exact ih h.2

theorem Path.take {after} (h : Path fs v c i (ss ++ after)) : Path fs v c i ss := by
  induction ss generalizing c i with
  | nil => trivial
  | cons s ss ih => exact ⟨h.1, ih h.2⟩

/-- The slots of a cluster from index `i` on, and then those of the next cluster. -/
theorem path_cluster (hbase : fs.entriesPerCluster ∣ base) {n} (rest : List Slot)
    (hn : i + n ≤ fs.entriesPerCluster) (hrest : Path fs v c (i + n) rest) :
    Path fs v c i ((range' i n).map (fun j => ⟨c, base + j, v.dirs c j⟩) ++ rest) := by
  induction n generalizing i with
  | zero => exact hrest
  | succ n ih =>
    have hi : i < fs.entriesPerCluster := by omega
    rw [range'_succ, map_cons, cons_append, Path]
    rw [if_pos hi, pos_mk hbase hi]
    refine ⟨⟨rfl, rfl⟩, ih (by omega) ?_⟩
    rwa [Nat.add_right_comm, add_assoc]

theorem path_dirSlots (hbase : fs.entriesPerCluster ∣ base) (hc : IsValid c) :
    Path fs v c 0 (dirSlots fs v fuel c base).1 := by
  induction fuel generalizing c base with
  | zero => trivial
  | succ fuel ih =>
    obtain ⟨k, hk, heq, -, hfull⟩ := clusterSlots_eq fs v c base
    rw [range_eq_range'] at heq
    rw [dirSlots, if_neg (not_not.mpr hc)]
    split
    · have hpath := path_cluster (v := v) (c := c) hbase (i := 0) (n := k) [] (by omega) trivial
      rwa [append_nil, ← heq] at hpath
    case isFalse hend =>
    obtain rfl := hfull.mpr hend
    rw [heq]
    refine path_cluster hbase _ (by omega) ?_
    have hbase' := dvd_add hbase (dvd_refl fs.entriesPerCluster)
    by_cases hnext : IsValid (getNext v c)
    · have hrest := ih hbase' hnext
      -- The first slot of the rest is the first one of the next cluster.
      cases hss : (dirSlots fs v fuel (getNext v c) (base + fs.entriesPerCluster)).1 with
      | nil => trivial
      | cons s ss =>
        rw [hss, Path, if_pos fs.entriesPerCluster_pos] at hrest
        rw [Path, if_neg (by omega)]
        exact ⟨⟨hnext, hrest.1⟩, hrest.2⟩
    cases fuel with
    | zero => trivial
    | succ fuel =>
      rw [dirSlots, if_pos hnext]
      trivial

/-- Entries written to slots. -/
def writeAt (fs : Layout) (v : Volume) (writes : List (Slot × Dirent)) : Volume :=
  writes.foldl (fun v w => v.setDirent w.1.cluster (w.1.pos fs) w.2) v

@[simp] theorem writeAt_nil (fs : Layout) (v : Volume) : writeAt fs v [] = v := rfl

theorem writeAt_cons (fs : Layout) (v : Volume) (s : Slot) (d : Dirent)
    (writes : List (Slot × Dirent)) : writeAt fs v ((s, d) :: writes) =
      writeAt fs (v.setDirent s.cluster (s.pos fs) d) writes := rfl

theorem writeAt_append (fs : Layout) (v : Volume) (writes writes' : List (Slot × Dirent)) :
    writeAt fs v (writes ++ writes') = writeAt fs (writeAt fs v writes) writes' :=
  foldl_append

theorem setDirent_dirs (v : Volume) (c i : Nat) (d : Dirent) (c' i' : Nat) :
    (v.setDirent c i d).dirs c' i' = if c' = c ∧ i' = i then d else v.dirs c' i' := by
  simp only [Volume.setDirent, Volume.writeCluster]
  by_cases hc : c' = c
  · subst hc
    rw [update_self]
    by_cases hi : i' = i
    · subst hi
      rw [update_self, if_pos ⟨rfl, rfl⟩]
    · rw [update_of_ne hi, if_neg fun h => hi h.2]
  · rw [update_of_ne hc, if_neg fun h => hc h.1]

/-- Writing entries touches neither the table nor the counters. -/
structure SameTable (v v' : Volume) : Prop where
  fat : v'.fat = v.fat
  nextFree : v'.nextFree = v.nextFree
  freeClusters : v'.freeClusters = v.freeClusters

theorem writeAt_sameTable (fs : Layout) (v : Volume) (writes : List (Slot × Dirent)) :
    SameTable v (writeAt fs v writes) := by
  induction writes generalizing v with
  | nil => exact ⟨rfl, rfl, rfl⟩
  | cons w writes ih =>
    obtain ⟨hfat, hnext, hfree⟩ := ih (v.setDirent w.1.cluster (w.1.pos fs) w.2)
    exact ⟨hfat, hnext, hfree⟩

/-- What the writes leave alone. -/
theorem writeAt_of_not_mem {writes} (h : ∀ w ∈ writes, ¬ (c = w.1.cluster ∧ i = w.1.pos fs)) :
    (writeAt fs v writes).dirs c i = v.dirs c i := by
  induction writes generalizing v with
  | nil => rfl
  | cons w writes ih =>
    refine (ih fun w' hw => h w' (mem_cons_of_mem _ hw)).trans ?_
    rw [setDirent_dirs, if_neg (h w mem_cons_self)]

/-- A slot holds its last write. -/
theorem writeAt_mem (fs : Layout) (v : Volume) (writes : List (Slot × Dirent)) (c i : Nat) :
    (writeAt fs v writes).dirs c i = v.dirs c i ∨
      ∃ w ∈ writes, c = w.1.cluster ∧ i = w.1.pos fs ∧ (writeAt fs v writes).dirs c i = w.2 := by
  induction writes generalizing v with
  | nil => exact .inl rfl
  | cons w writes ih =>
    obtain hsame | ⟨w', hw, hrest⟩ := ih (v.setDirent w.1.cluster (w.1.pos fs) w.2)
    · rw [setDirent_dirs] at hsame
      split at hsame
      case isTrue heq => exact .inr ⟨w, mem_cons_self, heq.1, heq.2, hsame⟩
      · exact .inl hsame
    · exact .inr ⟨w', mem_cons_of_mem _ hw, hrest⟩

/-- The loop of an addition writes to the slots on its path. -/
theorem writeEntries_path {ds} (hpath : Path fs v c i ss) (hlen : ds.length = ss.length) :
    writeEntries fs v c i ds = (vfsOk, writeAt fs v (ss.zip ds)) := by
  induction ds generalizing v c i ss with
  | nil =>
    cases ss with
    | nil => rfl
    | cons => cases hlen
  | cons d ds ih =>
    cases ss with
    | nil => cases hlen
    | cons s ss =>
      obtain ⟨hfirst, hrest⟩ := hpath
      have hlength' : ds.length = ss.length := by simpa using hlen
      rw [writeEntries, zip_cons_cons, writeAt_cons]
      by_cases hi : i < fs.entriesPerCluster
      · rw [if_pos hi] at hfirst
        rw [if_neg (not_le.mpr hi)]
        obtain ⟨hc, hpos'⟩ := hfirst
        rw [hc, hpos'] at hrest ⊢
        exact ih ((path_congr (by rfl)).mpr hrest) hlength'
      rw [if_neg hi] at hfirst
      rw [if_pos (not_lt.mp hi)]
      obtain ⟨hval, hc, hpos'⟩ := hfirst
      rw [if_neg (not_not.mpr hval)]
      rw [hc, hpos'] at hrest ⊢
      exact ih ((path_congr (by rfl)).mpr hrest) hlength'

end Kurios.Fat32
