import Kurios.Fat32.Run

/-!
The search of `fat32_alloc_cluster` for a free cluster.

The search ends when it is back at its start, which is the hint `next_free`. From a hint that
is the number of a cluster it visits every cluster of the volume (`allocLoop_volume`). From a
hint past the last cluster, such as the one left by an allocation of that cluster, it looks at an
entry that belongs to no cluster, and it does not come back (`allocLoop_endless`).
-/

namespace Kurios.Fat32

open Mount (smallFs)

variable {fs : Layout} {v : Volume} {start c fuel : Nat}

/-- The number of a cluster of the volume. -/
def InVolume (fs : Layout) (c : Nat) : Prop := 2 ≤ c ∧ c < fs.totalClusters + 2

/-- The search has been at `b` when it comes to `c`. -/
def Visited (start c b : Nat) : Prop :=
  if start ≤ c then start ≤ b ∧ b < c else start ≤ b ∨ b < c

theorem allocLoop_volume (hstart : InVolume fs start) (hc : InVolume fs c)
    (hfuel : (if start ≤ c then fs.totalClusters + start - c else start - c) ≤ fuel)
    (hvisited : ∀ b, InVolume fs b → Visited start c b → v.fat b ≠ freeMark) :
    ∃ r, allocLoop fs v start fuel c = some r ∧
      ((r = 0 ∧ ∀ b, InVolume fs b → v.fat b ≠ freeMark) ∨
        (InVolume fs r ∧ v.fat r = freeMark)) := by
  unfold InVolume Visited at *
  induction fuel generalizing c with
  | zero => split at hfuel <;> omega
  | succ fuel ih =>
    rw [allocLoop]
    by_cases hfree : v.fat c = freeMark
    · exact ⟨c, if_pos hfree, .inr ⟨hc, hfree⟩⟩
    rw [if_neg hfree]
    -- The clusters visited at the next one are those visited here, and this one.
    generalize hnext : (if c + 1 ≥ fs.totalClusters + 2 then 2 else c + 1) = next
    have hcases : (c + 1 = fs.totalClusters + 2 ∧ next = 2) ∨
        (c + 1 < fs.totalClusters + 2 ∧ next = c + 1) := by
      split at hnext <;> omega
    have hseen : ∀ b, (2 ≤ b ∧ b < fs.totalClusters + 2) →
        (next = start ∨ if start ≤ next then start ≤ b ∧ b < next else start ≤ b ∨ b < next) →
        v.fat b ≠ freeMark := by
      intro b hb hbef
      by_cases heq : b = c
      · rw [heq]
        exact hfree
      apply hvisited b hb
      split at hbef <;> split <;> omega
    by_cases hback : next = start
    · exact ⟨0, if_pos hback, .inl ⟨rfl, fun b hb => hseen b hb (.inl hback)⟩⟩
    rw [if_neg hback]
    apply ih (by omega)
    · split at hfuel <;> split <;> omega
    · exact fun b hb hbef => hseen b hb (.inr hbef)

/-- From a start past the clusters the search of a full table has no end. -/
theorem allocLoop_endless (hstart : fs.totalClusters + 2 ≤ start) (hpos : 0 < fs.totalClusters)
    (hused : ∀ b, v.fat b ≠ freeMark) : allocLoop fs v start fuel c = none := by
  induction fuel generalizing c with
  | zero => rfl
  | succ fuel ih =>
    rw [allocLoop, if_neg (hused c)]
    rw [if_neg (by split <;> omega)]
    exact ih

/-- The allocation returns; a cluster it returns is one of the volume that was free, and only its
entry changes; and it returns none only if there is none or the count of free clusters is 0. -/
def AllocatesWell (fs : Layout) (v : Volume) : Prop :=
  ∃ c v', allocCluster fs v = some (c, v') ∧
    ((c = 0 ∧ (v.freeClusters = 0 ∨ ∀ b, InVolume fs b → v.fat b ≠ freeMark)) ∨
      (InVolume fs c ∧ Allocated v v' c))

/-- The hint, as the search uses it, is the number of a cluster. -/
def GoodHint (fs : Layout) (v : Volume) : Prop :=
  (if v.nextFree ≥ 2 then v.nextFree else 2) < fs.totalClusters + 2
deriving Decidable

theorem allocatesWell_of_goodHint (hw : fs.readOnly = false) (hhint : GoodHint fs v) :
    AllocatesWell fs v := by
  by_cases hcnt : v.freeClusters = 0
  · exact ⟨0, v, if_pos (.inr hcnt), .inl ⟨rfl, .inl hcnt⟩⟩
  have hstart : InVolume fs (if v.nextFree ≥ 2 then v.nextFree else 2) :=
    ⟨by split <;> omega, hhint⟩
  obtain ⟨r, hloop, hr⟩ := @allocLoop_volume fs v _ _ (fs.totalClusters + 2) hstart hstart
    (by rw [if_pos le_rfl]; omega) (fun b _ hb => by
      rw [Visited, if_pos le_rfl] at hb
      omega)
  unfold AllocatesWell allocCluster
  rw [if_neg (by simp [hw, hcnt])]
  simp only [hloop]
  obtain ⟨rfl, hnone⟩ | ⟨hvolume, hfree⟩ := hr
  · exact ⟨0, v, rfl, .inl ⟨rfl, .inr hnone⟩⟩
  · cases r with
    | zero => exact absurd hvolume.1 (by decide)
    | succ r => exact ⟨_, _, rfl, .inr ⟨hvolume, hvolume.1, hfree, rfl, rfl⟩⟩

/-- **Cluster allocation.** On a volume with clusters, the allocation does what it should for
every contents of the table exactly when the volume can be written and the hint is the number of
a cluster, or nothing is counted as free. -/
theorem allocCluster_iff (fs : Layout) (v : Volume) (hclusters : 0 < fs.totalClusters) :
    (∀ fat, AllocatesWell fs { v with fat := fat }) ↔
      v.freeClusters = 0 ∨ (fs.readOnly = false ∧ GoodHint fs v) := by
  constructor
  · intro hall
    by_cases hcount : v.freeClusters = 0
    · exact .inl hcount
    -- In a table of free entries the search ends at its start.
    obtain ⟨c, v', halloc, ⟨-, hnone⟩ | ⟨hvolume, -⟩⟩ := hall fun _ => freeMark
    · exact absurd rfl (hnone.resolve_left hcount 2 ⟨le_refl 2, by omega⟩)
    unfold allocCluster at halloc
    split at halloc
    · cases halloc
      exact absurd hvolume.1 (by decide)
    case isFalse hallowed =>
    obtain ⟨k, hk⟩ : ∃ k, (if v.nextFree ≥ 2 then v.nextFree else 2) = k + 1 :=
      Nat.exists_eq_succ_of_ne_zero (by split <;> omega)
    simp only [allocLoop, hk] at halloc
    cases halloc
    right
    constructor
    · exact Bool.eq_false_iff.mpr fun hro => hallowed (.inl hro)
    · rw [GoodHint, hk]
      exact hvolume.2
  · rintro (hcount | ⟨hwritable, hhint⟩) fat
    · exact ⟨0, _, if_pos (.inr hcount), .inl ⟨rfl, .inl hcount⟩⟩
    · exact allocatesWell_of_goodHint hwritable hhint

/-- Only the last cluster is free, and the hint is at it. -/
def lastFree (slack : Nat) : Volume where
  fat c := if c = 65526 then freeMark else if c < 65526 then eoc else slack
  nextFree := 65526
  freeClusters := countUnknown
  dirs _ _ := .zero

theorem allocCluster_good_hint : 0 < smallFs.totalClusters ∧ AllocatesWell smallFs (lastFree eoc) :=
  ⟨by decide, (allocCluster_iff smallFs (lastFree eoc) (by decide)).mpr (.inr ⟨rfl, by decide⟩) _⟩

/-- The allocation of the last cluster leaves a hint past it. The next allocation returns the
number of no cluster if the entry there is 0, and is endless if it is not. -/
theorem allocCluster_past_end :
    (∃ v, allocCluster smallFs (lastFree freeMark) = some (65526, v) ∧
      ∃ v', allocCluster smallFs v = some (65527, v')) ∧
    ∃ v, allocCluster smallFs (lastFree eoc) = some (65526, v) ∧ v.nextFree = 65527 ∧
      ∀ fuel, allocLoop smallFs v v.nextFree fuel v.nextFree = none := by
  constructor
  · exact ⟨_, rfl, _, rfl⟩
  obtain ⟨v, halloc, hnext⟩ : ∃ v, allocCluster smallFs (lastFree eoc) = some (65526, v) ∧
      v.nextFree = 65527 := ⟨_, rfl, rfl⟩
  have hnew : Allocated (lastFree eoc) v 65526 := (allocCluster_spec halloc).resolve_left (by simp)
  refine ⟨v, halloc, hnext, fun fuel => ?_⟩
  apply allocLoop_endless (hnext ▸ le_rfl) (by decide)
  intro b
  by_cases hlast : b = 65526
  · rw [hlast, hnew.fat_self]
    decide
  · rw [hnew.fat_of_ne hlast]
    simp [lastFree, hlast, eoc, freeMark]

end Kurios.Fat32
