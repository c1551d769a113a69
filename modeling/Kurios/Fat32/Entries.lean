import Kurios.Fat32.Ops

/-!
What additions and removals do to the owners of clusters.

An addition that finds its free entries from the first cluster of the directory on replaces
free entries by those of the long name and one of them by the new entry (`Added`). A removal
marks one entry and entries of long names (`Removed`).
-/

namespace Kurios.Fat32

open Errno Function Option List

variable {attr cluster j needed size x : Nat} {xs : List Nat} {s : Slot} {o : Bool} {ret : Int}
  {d : Dirent} {fs : Layout} {v v' v'' : Volume} {R : Place → Nat → Prop}
  {opened : Nat → Nat → Bool} {owner owner' : Nat → Option Place} {p q : Place}
  {b c new fuel base : Nat} {name short : List Nat}

/-! ### Short names -/

/-- A character that a short name can start with. -/
def ShortCode (c : Nat) : Prop := 32 < c ∧ c < 128 ∧ c ≠ 46

theorem shortChar_shortCode (h : ¬ (c = 32 ∨ c = 46)) : ShortCode (shortChar c).1 := by
  unfold shortChar
  split
  · exact ⟨by decide, by decide, by decide⟩
  case isFalse hval =>
  simp only [isInvalid, decide_eq_true_eq, not_or] at hval
  obtain ⟨hlow, hhigh, -⟩ := hval
  unfold ShortCode toUpper at *
  split at hlow
  case isTrue hcase => rw [if_pos hcase] at hhigh ⊢; omega
  case isFalse hcase => rw [if_neg hcase] at hhigh ⊢; omega

theorem baseChars_shortCode {room cs} (hx : x ∈ (baseChars room cs).1) : ShortCode x := by
  induction cs generalizing room with
  | nil => cases room <;> cases hx
  | cons c cs ih =>
    cases room with
    | zero => cases hx
    | succ room =>
      rw [baseChars] at hx
      split at hx
      · exact ih hx
      case isFalse hc =>
      rcases mem_cons.mp hx with rfl | hx
      · exact shortChar_shortCode hc
      · exact ih hx

theorem length_suffixChars_le {n} (hn : n < 1000000) : (suffixChars n).length ≤ 7 := by
  have hdigits : (Nat.toDigits 10 n).length ≤ 6 :=
    (Nat.length_toDigits_le_iff (by decide) (by decide)).mpr (by simpa using hn)
  rw [suffixChars, length_cons, length_map]
  omega

/-- A generated short name starts with a character: it is not free, no end mark and no dot. -/
theorem generateShortName_first (name : List Nat) (n : Nat) :
    ∃ c cs, (generateShortName name n).1 = c :: cs ∧ ShortCode c := by
  have hbase : ∀ chars : List Nat, (∀ x ∈ chars, ShortCode x) →
      ∃ c cs, pad 8 (if chars = [] then [95] else chars) = c :: cs ∧ ShortCode c := by
    intro chars hall
    cases chars with
    | nil => exact ⟨95, _, rfl, by decide, by decide, by decide⟩
    | cons c cs => exact ⟨c, _, rfl, hall c mem_cons_self⟩
  obtain ⟨c, cs, heq, hc⟩ := hbase (baseChars 8 (splitExt name).1).1 fun x => baseChars_shortCode
  unfold generateShortName
  simp only [heq]
  split
  case isTrue hn =>
    have hlen := length_suffixChars_le hn.2
    obtain ⟨k, hk⟩ : ∃ k, 8 - (suffixChars n).length = k + 1 :=
      ⟨7 - (suffixChars n).length, by omega⟩
    simp only [hk, take_succ_cons, cons_append]
    exact ⟨c, _, rfl, hc⟩
  · exact ⟨c, _, rfl, hc⟩

/-- What holds of every generated short name holds of the one that is picked. -/
theorem pickShortName_spec (P : List Nat → Prop) (hall : ∀ n, P (generateShortName name n).1)
    {suffix start result} (hstart : P start.1)
    (h : pickShortName fs v c name fuel suffix start = some result) : P result.1 := by
  induction fuel generalizing suffix start with
  | zero =>
    cases h
    exact hstart
  | succ fuel ih =>
    rw [pickShortName] at h
    split at h
    · cases h
    · cases h
      exact hstart
    · -- The next name has a larger number.
      refine ih ?_ h
      exact hall (suffix + 1)

theorem isEntry_short (hx : ShortCode x) (hattr : attr &&& attrVolumeId = 0) :
    (Dirent.short (x :: xs) attr cluster size).IsEntry := by
  obtain ⟨hlow, hhigh, hdot⟩ := hx
  refine ⟨?_, rfl, ?_, ?_⟩
  · simp only [Dirent.first, headD_cons, direntFree]
    omega
  · simp [Dirent.isLabel, hattr]
  unfold Dirent.isDot Dirent.isDotName
  dsimp only
  split
  case h_1 heq => exact absurd (List.cons.inj heq).1 hdot
  case h_2 heq => exact absurd (List.cons.inj heq).1 hdot
  · rfl

theorem first_short_ne_end (hx : ShortCode x) :
    (Dirent.short (x :: xs) attr cluster size).first ≠ direntEnd := by
  have hlow := hx.1
  simp only [Dirent.first, headD_cons, direntEnd]
  omega

/-! ### Slots of a directory -/

/-- The slots of a directory are in clusters that it owns. -/
theorem mem_dirSlots_owner (h : Owned fs v R opened owner) (hc : owner c = some p)
    (hp : p.kind = .dir) (hs : s ∈ (dirSlots fs v fuel c base).1) :
    ∃ q, owner s.cluster = some q ∧ q.kind = .dir := by
  have hclus : ∀ {c base : Nat} {p : Place}, owner c = some p → p.kind = .dir →
      s ∈ clusterSlots fs v c base → ∃ q, owner s.cluster = some q ∧ q.kind = .dir := by
    intro c base p hc hp hs
    obtain ⟨i, -, rfl⟩ := mem_clusterSlots.mp hs
    exact ⟨p, hc, hp⟩
  induction fuel generalizing c base p with
  | zero => cases hs
  | succ fuel ih =>
    have hval := (h.valid c p hc).1
    rw [dirSlots, if_neg (not_not.mpr hval), getNext_of_valid hval] at hs
    split at hs
    · exact hclus hc hp hs
    case isFalse hend =>
    rcases mem_append.mp hs with hs | hs
    · exact hclus hc hp hs
    by_cases hnext : IsValid (v.fat c)
    · obtain ⟨k, hk, -, hdir⟩ := h.next hc hnext
      exact ih hk (hdir hp hend) hs
    cases fuel with
    | zero => cases hs
    | succ fuel =>
      rw [dirSlots, if_pos hnext] at hs
      cases hs

/-- A slot that a lookup finds is in the directory, and is a short entry in use. -/
theorem findIn_spec {buf slots} (h : findIn name buf slots = some s) :
    s ∈ slots ∧ s.entry.first ≠ direntFree ∧ s.entry.isLong = false ∧ s.entry.isLabel = false := by
  induction slots generalizing buf with
  | nil => cases h
  | cons t slots ih =>
    have hrest : ∀ {buf}, findIn name buf slots = some s → s ∈ t :: slots ∧
        s.entry.first ≠ direntFree ∧ s.entry.isLong = false ∧ s.entry.isLabel = false := by
      intro buf h
      obtain ⟨hmem, hfacts⟩ := ih h
      exact ⟨mem_cons_of_mem _ hmem, hfacts⟩
    rw [findIn] at h
    split at h
    · exact hrest h
    case isFalse hfree =>
    split at h
    · exact hrest h
    case h_2 hent =>
    split at h
    · exact hrest h
    case isFalse hlabel =>
    split at h
    · cases h
      refine ⟨mem_cons_self, hfree, ?_, Bool.eq_false_iff.mpr hlabel⟩
      rw [hent]
      rfl
    · exact hrest h

theorem findInDir_spec (h : findInDir fs v c name = some (some s)) :
    s ∈ (dirSlots fs v clusterLimit c 0).1 ∧ s.entry.first ≠ direntFree ∧
      s.entry.isLong = false ∧ s.entry.isLabel = false := by
  unfold findInDir at h
  simp only at h
  split at h
  case h_1 hfind =>
    cases h
    exact findIn_spec hfind
  · split at h <;> cases h

theorem findFreeInDir_spec {start} (h : findFreeInDir fs v c needed = some start) :
    findFree needed 0 none (dirSlots fs v clusterLimit c 0).1 = start := by
  unfold findFreeInDir at h
  simp only at h
  split at h
  case h_1 hfind => exact hfind.trans (some.inj h)
  case h_2 hnone =>
  split at h
  · exact hnone.trans (some.inj h)
  · cases h

/-- A cluster that lists nothing ends the search. -/
theorem dirSlots_of_not_listed (hnone : ∀ i, ¬ Listed fs v c i) :
    (dirSlots fs v fuel c base).1 = [] := by
  obtain ⟨k, -, hslots, hlisted, hend⟩ := clusterSlots_eq fs v c base
  obtain rfl : k = 0 := by
    by_contra hk
    exact hnone 0 ((hlisted 0).mp (pos_of_ne_zero hk))
  cases fuel with
  | zero => rfl
  | succ fuel =>
    rw [dirSlots]
    split
    · rfl
    rw [if_pos]
    · exact hslots
    by_contra hno
    exact fs.entriesPerCluster_pos.ne (hend.mpr hno)

/-- The node is for a directory, possibly one without a cluster. -/
def IsDirCluster (owner : Nat → Option Place) (c : Nat) : Prop :=
  c = 0 ∨ ∃ p, owner c = some p ∧ p.kind = .dir

theorem pickShortName_congr {suffix start}
    (h : dirSlots fs v' clusterLimit c 0 = dirSlots fs v clusterLimit c 0) :
    pickShortName fs v' c name fuel suffix start = pickShortName fs v c name fuel suffix start := by
  induction fuel generalizing suffix start with
  | zero => rfl
  | succ fuel ih => simp only [pickShortName, findInDir, h, ih]

/-! ### Space for an addition -/

section

variable (h : Owned fs v R opened owner)
include h

/-- Directories hold what they held, and their chains are the same or end with one more cluster
that lists nothing: a search sees the same entries. -/
theorem Owned.dirSlots_eq (fuel base : Nat)
    (hdirs : ∀ b p, owner b = some p → p.kind = .dir → v'.dirs b = v.dirs b)
    (hfat : ∀ b p, owner b = some p → v'.fat b = v.fat b ∨
      ¬ IsValid (v.fat b) ∧ ∀ i, ¬ Listed fs v' (v'.fat b) i)
    (hc : IsDirCluster owner c) : (dirSlots fs v' fuel c base).1 = (dirSlots fs v fuel c base).1 ∧
      ((∀ b p, owner b = some p → v'.fat b = v.fat b) →
        (dirSlots fs v' fuel c base).2 = (dirSlots fs v fuel c base).2) := by
  induction fuel generalizing c base with
  | zero => exact ⟨rfl, fun _ => rfl⟩
  | succ fuel ih =>
    rw [dirSlots, dirSlots]
    obtain rfl | ⟨p, hp, hdir⟩ := hc
    · exact ⟨rfl, fun _ => rfl⟩
    have hval := (h.valid c p hp).1
    have hiff : HasEnd fs v' c ↔ HasEnd fs v c := by rw [HasEnd, HasEnd, hdirs c p hp hdir]
    rw [if_neg (not_not.mpr hval), if_neg (not_not.mpr hval), getNext_of_valid hval,
      getNext_of_valid hval, clusterSlots, clusterSlots, hdirs c p hp hdir]
    by_cases hend : HasEnd fs v c
    · rw [if_pos hend, if_pos (hiff.mpr hend)]
      exact ⟨rfl, fun _ => rfl⟩
    rw [if_neg hend, if_neg (mt hiff.mp hend)]
    dsimp only
    by_cases hnext : IsValid (v.fat c)
    · obtain ⟨k, hk, -, hkdir⟩ := h.next hp hnext
      rw [(hfat c p hp).resolve_right fun hnew => hnew.1 hnext]
      exact (ih _ (.inr ⟨_, hk, hkdir hdir hend⟩)).imp_left (congrArg (_ ++ ·))
    -- The chain ended here.
    cases fuel with
    | zero => exact ⟨rfl, fun _ => rfl⟩
    | succ fuel =>
    have hlast : ∀ {w : Volume} {base}, dirSlots fs w (fuel + 1) (v.fat c) base = ([], true) := by
      intro w base
      rw [dirSlots, if_pos hnext]
    rw [hlast]
    refine ⟨congrArg (_ ++ ·) ?_, fun hsame => by rw [hsame c p hp, hlast]⟩
    obtain heq | ⟨-, hnone⟩ := hfat c p hp
    · rw [heq, hlast]
    · exact dirSlots_of_not_listed hnone

/-- A new cluster without a place is filled. -/
theorem Owned.grown_fill (hnew : Allocated v v' new) (entries : Nat → Dirent) :
    Grown fs R opened v owner (v'.writeCluster new entries) owner := by
  have hgr := h.grown_alloc hnew
  have howner := h.owner_eq_none hnew.free
  have hdirs : ∀ b, b ≠ new → (v'.writeCluster new entries).dirs b = v'.dirs b :=
    fun b hb => update_of_ne hb _ _
  have hne : ∀ b p, owner b = some p → b ≠ new := by
    rintro b p hb rfl
    rw [howner] at hb
    cases hb
  refine ⟨hgr.owned.frameContents rfl fun b p hb _ => hdirs b (hne b p hb), hgr.keeps,
    fun b p hb hp => ?_, fun b hb hused => ?_⟩
  · rw [hdirs b (hne b p hb), hgr.dirs b p hb hp]
  obtain ⟨hnone, hfat, hdirs'⟩ := hgr.others b hb hused
  refine ⟨hnone, hfat, (hdirs b ?_).trans hdirs'⟩
  rintro rfl
  exact hused hnew.free

/-- A directory grows by an empty cluster, or stays when there is none. -/
theorem extendDir_spec (hc : IsDirCluster owner c) (hext : extendChain fs v c = some (new, v')) :
    (new = 0 ∧ v' = v) ∨
      (new ≠ 0 ∧ (∃ owner', Grown fs R opened v owner (v'.zeroCluster new) owner') ∧
        (dirSlots fs (v'.zeroCluster new) clusterLimit c 0).1 =
          (dirSlots fs v clusterLimit c 0).1) := by
  have hold : ∀ v₁ {b p}, Allocated v v₁ new → owner b = some p → v₁.fat b = v.fat b :=
    fun _ _ _ halloc hb => halloc.fat_of_ne (Base.ne_of_label hb (h.owner_eq_none halloc.free))
  obtain rfl | ⟨p, hp, -⟩ := id hc
  · unfold extendChain at hext
    split at hext
    · cases hext
    case h_2 halloc =>
      cases hext
      obtain ⟨-, rfl⟩ | halloc := allocCluster_spec halloc
      · exact .inl ⟨rfl, rfl⟩
      · exact absurd halloc.two_le (by decide)
    case h_3 hne halloc =>
    cases hext
    obtain ⟨rfl, -⟩ | halloc := allocCluster_spec halloc
    · exact absurd rfl hne
    · have hgr := h.grown_fill halloc fun _ => .zero
      exact .inr ⟨(halloc.isValid h.limit).ne_zero, ⟨owner, hgr⟩,
        (h.dirSlots_eq _ _ hgr.dirs (fun _ _ hb => .inl (hold v' halloc hb)) hc).1⟩
  obtain hnone | hext := extendChain_spec h hp hext
  · exact .inl hnone
  obtain ⟨owner', k, via, hgr, hnew, -⟩ := h.extended hext
  obtain ⟨v₁, last, q, halloc, hlast, -, hend, hfat, -⟩ := hext.exists_last
  refine .inr ⟨(hgr.owned.valid _ _ hnew).1.ne_zero, ⟨owner', hgr⟩,
    (h.dirSlots_eq _ _ hgr.dirs (fun b p hb => ?_) hc).1⟩
  by_cases hbl : b = last
  · rw [hbl, ← hold v₁ halloc hlast]
    refine .inr ⟨hend, ?_⟩
    rw [show (v'.zeroCluster new).fat last = new by exact hfat ▸ update_self _ _ _]
    exact not_listed_zeroCluster fs v' new
  · rw [← hold v₁ halloc hb]
    exact .inl (hfat ▸ update_of_ne hbl _ _)

/-- The entries that are found were there before. -/
theorem findSpace_spec (hc : IsDirCluster owner c)
    {start} (hfind : findSpace fs v c needed = some (start, v')) :
    (start = none ∧ ∃ owner', Grown fs R opened v owner v' owner') ∨
      (v' = v ∧ findFree needed 0 none (dirSlots fs v clusterLimit c 0).1 = start) := by
  unfold findSpace at hfind
  split at hfind
  · cases hfind
  case h_2 hfree =>
    cases hfind
    exact .inr ⟨rfl, findFreeInDir_spec hfree⟩
  case h_3 hfull =>
  split at hfind
  · cases hfind
  case h_2 new v1 hext =>
  obtain ⟨rfl, rfl⟩ | ⟨hne, hgr, hslots⟩ := extendDir_spec h hc hext
  · cases hfind
    exact .inl ⟨rfl, owner, .refl h⟩
  rw [if_neg hne] at hfind
  simp only at hfind
  split at hfind
  · cases hfind
  case h_2 hfree =>
  cases hfind
  refine .inl ⟨?_, hgr⟩
  rw [← findFreeInDir_spec hfree, hslots, findFreeInDir_spec hfull]

end

/-! ### An addition -/

/-- The new entries: those of the long name, and one for the file. -/
theorem newEntries_spec {needsLfn ds}
    (h : newEntries name short needsLfn attr cluster size = some ds) :
    ∃ longs, ds = longs ++ [.short short attr cluster size] ∧
      longs.length = (if needsLfn ∨ name.length > 11 then lfnCount name else 0) ∧
      ∀ d ∈ longs, d.isLong = true ∧ d.first ≠ direntEnd := by
  unfold newEntries at h
  split at h
  case isTrue hlong =>
    unfold createLfn at h
    split at h <;> cases h
    refine ⟨_, rfl, by rw [if_pos hlong, length_map, length_range], fun d hd => ?_⟩
    obtain ⟨i, hi, rfl⟩ := mem_map.mp hd
    have hi := mem_range.mp hi
    refine ⟨rfl, ?_⟩
    simp only [lfnEntry, Dirent.first, direntEnd, lfnLast]
    split <;> omega
  case isFalse hlong =>
    cases h
    exact ⟨[], rfl, by rw [if_neg hlong]; rfl, fun d hd => by cases hd⟩

/-- One free entry of a directory has become the entry `d`, and others are entries of a long
name. -/
def Added (fs : Layout) (owner : Nat → Option Place) (v v' : Volume) (d : Dirent) : Prop :=
  ∃ c i p, owner c = some p ∧ p.kind = .dir ∧ Listed fs v c i ∧
    (v.dirs c i).first = direntFree ∧ v'.fat = v.fat ∧ v'.dirs c i = d ∧
      ∀ b j, b ≠ c ∨ j ≠ i → v'.dirs b j = v.dirs b j ∨
        ((v.dirs b j).first = direntFree ∧ (v'.dirs b j).isLong = true ∧
          (v'.dirs b j).first ≠ direntEnd)

namespace Added

variable {d : Dirent}

section

variable (h : Added fs owner v v' d)
include h

theorem fat : v'.fat = v.fat := by
  obtain ⟨c, i, p, -, -, -, -, hfat, -⟩ := h
  exact hfat

/-- Entries in use stay. -/
theorem keeps (hused : (v.dirs b j).first ≠ direntFree) : v'.dirs b j = v.dirs b j := by
  obtain ⟨c, i, p, -, -, -, hfree, -, -, hoth⟩ := h
  have hne : b ≠ c ∨ j ≠ i := by
    by_contra hboth
    obtain ⟨rfl, rfl⟩ : b = c ∧ j = i := by tauto
    exact hused hfree
  exact (hoth b j hne).resolve_right fun hchanged => hused hchanged.1

theorem sameEnds (hfirst : d.first ≠ direntEnd) : SameEnds v v' := by
  obtain ⟨c, i, p, -, -, -, hfree, -, hent, hoth⟩ := h
  have hboth : ∀ x y : Dirent, x.first = direntFree → y.first ≠ direntEnd →
      (y.first = direntEnd ↔ x.first = direntEnd) := by
    intro x y hx hy
    rw [hx]
    exact ⟨fun h => absurd h hy, fun h => absurd h (by decide)⟩
  intro b j
  by_cases hcell : b = c ∧ j = i
  · obtain ⟨rfl, rfl⟩ := hcell
    rw [hent]
    exact hboth _ _ hfree hfirst
  · obtain hsame | ⟨hfree', -, hend⟩ := hoth b j (by tauto)
    · rw [hsame]
    · exact hboth _ _ hfree' hend

/-- An entry without a cluster points nowhere. -/
theorem fromSlot (hfirst : d.first ≠ direntEnd) (hzero : d.cluster = 0) (b j : Nat) :
    FromSlot o o (v.dirs b j) (v'.dirs b j) := by
  have hends := h.sameEnds hfirst
  obtain ⟨c, i, p, -, -, -, -, -, hentry, hoth⟩ := h
  by_cases hcell : b = c ∧ j = i
  · obtain ⟨rfl, rfl⟩ := hcell
    refine ⟨hends b j, fun _ _ => .inl ?_⟩
    rw [hentry, hzero]
  obtain hsame | ⟨-, hlong, -⟩ := hoth b j (by tauto)
  · rw [hsame]
    exact .of_eq rfl
  · refine .of_not_isEntry (hends b j) fun hent => ?_
    rw [hent.2.1] at hlong
    cases hlong

end

end Added

theorem first_dotEntries_ne (self parent j : Nat) :
    (dotEntries self parent j).first ≠ direntFree := by
  match j with
  | 0 | 1 =>
    show (46 : Nat) ≠ direntFree
    decide
  | _ + 2 =>
    show (0 : Nat) ≠ direntFree
    decide

/-- A new directory holds no entries but its own. -/
theorem not_isEntry_dotEntries {self parent} (hend : (dotEntries self parent j).first ≠ direntEnd) :
    ¬ (dotEntries self parent j).IsEntry := by
  match j, hend with
  | 0, _ | 1, _ => exact fun h => Bool.noConfusion (h.2.2.2 : true = false)
  | _ + 2, hend => exact absurd rfl hend

/-- The free entries that a search finds are next to each other. -/
theorem findFree_row (hc : IsValid c) (hneeded : 0 < needed)
    (hfree : findFree needed 0 none (dirSlots fs v clusterLimit c 0).1 = some s)
    (hfirst : s.index < fs.entriesPerCluster) :
    ∃ before row after, (dirSlots fs v clusterLimit c 0).1 = before ++ row ++ after ∧
      row.length = needed ∧ (∀ t ∈ row, t.entry.first = direntFree) ∧
        Path fs v s.cluster s.index row := by
  have hends : ∀ s ∈ (dirSlots fs v clusterLimit c 0).1, s.entry.first ≠ direntEnd := by
    intro s hs
    obtain ⟨hlst, heq⟩ := mem_dirSlots (dvd_zero _) hs
    rw [heq]
    exact hlst.first_ne
  obtain ⟨before, row, after, heq, hlen, hhead, hrow⟩ := findFree_spec [] hfree hneeded hends
    rfl (fun h => absurd h (lt_irrefl 0)) (fun _ h => by cases h)
  rw [nil_append] at heq
  refine ⟨before, row, after, heq, hlen, hrow, ?_⟩
  cases row with
  | nil => cases hhead
  | cons t row =>
    cases hhead
    have hall : Path fs v c 0 (dirSlots fs v clusterLimit c 0).1 := path_dirSlots (dvd_zero _) hc
    rw [heq, append_assoc, cons_append] at hall
    have hsuffix := hall.suffix
    rw [Slot.pos, Nat.mod_eq_of_lt hfirst, ← cons_append] at hsuffix
    exact hsuffix.take

/-- The entries of a long name and the entry are written over free ones. -/
theorem writeRow_spec (h : Owned fs v R opened owner) (hc : IsDirCluster owner c) {longs}
    (hfree : findFree needed 0 none (dirSlots fs v clusterLimit c 0).1 = some s)
    (hfirst : s.index < fs.entriesPerCluster) (hneeded : needed = longs.length + 1)
    (hlongs : ∀ d ∈ longs, d.isLong = true ∧ d.first ≠ direntEnd) :
    ∃ v', writeEntries fs v s.cluster s.index (longs ++ [d]) = (vfsOk, v') ∧
      Added fs owner v v' d := by
  have hdvd : fs.entriesPerCluster ∣ 0 := dvd_zero _
  -- The directory has a cluster, since it has a slot.
  obtain ⟨p, hp, hdir⟩ : ∃ p, owner c = some p ∧ p.kind = .dir := by
    rcases hc with rfl | hc
    · cases hfree
    · exact hc
  obtain ⟨before, row, after, heq, hlen, hrow, hpath⟩ :=
    findFree_row (h.valid c p hp).1 (by omega) hfree hfirst
  have hmem : ∀ t ∈ row, t ∈ (dirSlots fs v clusterLimit c 0).1 := by
    intro t ht
    rw [heq]
    exact mem_append_left _ (mem_append_right _ ht)
  -- The last free entry is the one for the file.
  obtain ⟨init, last, rfl⟩ : ∃ init last, row = init ++ [last] :=
    ⟨row.dropLast, row.getLast (ne_nil_of_length_pos (by omega)), (dropLast_append_getLast _).symm⟩
  have hinit : init.length = longs.length := by
    rw [length_append, length_singleton] at hlen
    omega
  refine ⟨_, writeEntries_path hpath (by simp [hinit]), ?_⟩
  rw [zip_append hinit, writeAt_append, zip_cons_cons, zip_nil_left, writeAt_cons, writeAt_nil]
  have hslot : ∀ t ∈ init ++ [last], Listed fs v t.cluster (t.pos fs) ∧
      (v.dirs t.cluster (t.pos fs)).first = direntFree := by
    intro t ht
    obtain ⟨hlst, hent⟩ := mem_dirSlots hdvd (hmem t ht)
    rw [← hent]
    exact ⟨hlst, hrow t ht⟩
  have hlast : last ∈ init ++ [last] := mem_append_right _ mem_cons_self
  obtain ⟨q, hq, hqdir⟩ := mem_dirSlots_owner h hp hdir (hmem last hlast)
  refine ⟨last.cluster, last.pos fs, q, hq, hqdir, (hslot last hlast).1, (hslot last hlast).2,
    (writeAt_sameTable fs v _).fat, ?_, fun b j hne => ?_⟩
  · rw [setDirent_dirs, if_pos ⟨rfl, rfl⟩]
  rw [setDirent_dirs, if_neg (by tauto)]
  obtain hsame | ⟨w, hw, rfl, rfl, hd⟩ := writeAt_mem fs v (init.zip longs) b j
  · exact .inl hsame
  obtain ⟨hslotmem, hlongmem⟩ := of_mem_zip hw
  obtain ⟨hlong, hend⟩ := hlongs w.2 hlongmem
  refine .inr ⟨(hslot w.1 (mem_append_left _ hslotmem)).2, ?_, ?_⟩ <;> rw [hd]
  · exact hlong
  · exact hend

/-- The free entries that an addition finds start in the first cluster of the directory. -/
def AddsInFirst (fs : Layout) (v : Volume) (dirCluster : Nat) (name : List Nat) : Prop :=
  ∀ short ∈ shortNameFor fs v dirCluster name,
    ∀ s ∈ findFree (entriesFor name short) 0 none (dirSlots fs v clusterLimit dirCluster 0).1,
      s.index < fs.entriesPerCluster
deriving Decidable

theorem AddsInFirst.congr (h : AddsInFirst fs v c name)
    (hslots : dirSlots fs v' clusterLimit c 0 = dirSlots fs v clusterLimit c 0) :
    AddsInFirst fs v' c name := by
  rwa [AddsInFirst, shortNameFor, pickShortName_congr hslots, hslots]

theorem shortNameFor_first {short} (hshort : shortNameFor fs v c name = some short) :
    ∃ x xs, short.1 = x :: xs ∧ ShortCode x :=
  pickShortName_spec (fun l => ∃ x xs, l = x :: xs ∧ ShortCode x) (generateShortName_first name)
    (generateShortName_first name 0) hshort

/-- An addition adds one entry, or it fails and gives the directory at most an empty cluster. -/
theorem addDirEntry_spec (h : Owned fs v R opened owner) (hc : IsDirCluster owner c)
    (hfirst : AddsInFirst fs v c name)
    (hadd : addDirEntry fs v c name attr cluster size = some (ret, v')) :
    (ret ≠ vfsOk ∧ ∃ owner', Grown fs R opened v owner v' owner') ∨ (ret = vfsOk ∧
      ∃ x xs, ShortCode x ∧ Added fs owner v v' (.short (x :: xs) attr cluster size)) := by
  unfold addDirEntry addSpace at hadd
  cases hshort : shortNameFor fs v c name with
  | none =>
    rw [hshort] at hadd
    cases hadd
  | some short =>
  cases hfind : findSpace fs v c (entriesFor name short) with
  | none =>
    simp only [hshort, hfind] at hadd
    cases hadd
  | some space =>
  obtain ⟨start, v1⟩ := space
  simp only [hshort, hfind] at hadd
  obtain ⟨rfl, hgr⟩ | ⟨rfl, hfree⟩ := findSpace_spec h hc hfind
  · cases hadd
    exact .inl ⟨by decide, hgr⟩
  cases start with
  | none =>
    cases hadd
    exact .inl ⟨by decide, owner, .refl h⟩
  | some s =>
  obtain ⟨ds, hds, hwrite⟩ := map_eq_some_iff.mp hadd
  obtain ⟨longs, rfl, hlen, hlongs⟩ := newEntries_spec hds
  obtain ⟨v2, hwr, hadded⟩ := writeRow_spec h hc hfree (hfirst short hshort s hfree)
    (by rw [hlen]; rfl) hlongs
  rw [hwr] at hwrite
  cases hwrite
  obtain ⟨x, xs, hname, hx⟩ := shortNameFor_first hshort
  rw [hname] at hadded
  exact .inr ⟨rfl, x, xs, hx, hadded⟩

/-! ### A removal -/

/-- The entries of long names are marked back to the first entry that is not one. -/
theorem markLong_eq (entries : Nat → Dirent) (i j : Nat) : markLong entries i j =
    if j < i ∧ ∀ k < i, j ≤ k → (entries k).isLong = true then (entries j).markFree
    else entries j := by
  induction i generalizing entries with
  | zero => exact (if_neg fun h => Nat.not_lt_zero _ h.1).symm
  | succ i ih =>
    rw [markLong]
    split
    case isFalse hshort =>
      exact (if_neg fun h => hshort (h.2 i (lt_add_one i) (Nat.le_of_lt_succ h.1))).symm
    case isTrue hlong =>
    have hbelow : ∀ {k}, k < i → update entries i (entries i).markFree k = entries k :=
      fun hk => update_of_ne (ne_of_lt hk) _ _
    rw [ih]
    by_cases hj : j = i
    · subst hj
      have hall : ∀ k < j + 1, j ≤ k → (entries k).isLong = true :=
        fun k hk hjk => le_antisymm hjk (Nat.le_of_lt_succ hk) ▸ hlong
      rw [if_neg fun h => lt_irrefl _ h.1, update_self, if_pos ⟨lt_add_one j, hall⟩]
    rw [update_of_ne hj]
    refine if_congr ⟨fun ⟨hlt, hall⟩ => ⟨Nat.lt_succ_of_lt hlt, fun k hk hjk => ?_⟩,
      fun ⟨hlt, hall⟩ => ⟨by omega, fun k hk hjk => ?_⟩⟩ rfl rfl
    · rcases Nat.lt_succ_iff_lt_or_eq.mp hk with hk | rfl
      · exact hbelow hk ▸ hall k hk hjk
      · exact hlong
    · exact (hbelow hk).symm ▸ hall k (Nat.lt_succ_of_lt hk) hjk

/-- One entry is marked free, and entries of long names in its cluster. -/
structure Removed (v v' : Volume) (c i : Nat) : Prop where
  fat : v'.fat = v.fat
  others : ∀ b, b ≠ c → v'.dirs b = v.dirs b
  slot : v'.dirs c i = (v.dirs c i).markFree
  longs : ∀ j, j ≠ i → v'.dirs c j = v.dirs c j ∨
    (j < i ∧ (v.dirs c j).isLong = true ∧ v'.dirs c j = (v.dirs c j).markFree)

theorem removeDirEntry_spec {dirCluster index}
    (h : removeDirEntry fs v dirCluster c index = some (ret, v')) :
    Removed v v' c (index % fs.entriesPerCluster) := by
  unfold removeDirEntry at h
  split at h
  · cases h
  case h_2 found hfound =>
  cases h
  generalize index % fs.entriesPerCluster = i
  have hentries : ∀ j, (if found = true then
        markLong (update (v.dirs c) i (v.dirs c i).markFree) i
      else update (v.dirs c) i (v.dirs c i).markFree) j =
        update (v.dirs c) i (v.dirs c i).markFree j ∨
      (j < i ∧ (v.dirs c j).isLong = true ∧ (if found = true then
        markLong (update (v.dirs c) i (v.dirs c i).markFree) i
      else update (v.dirs c) i (v.dirs c i).markFree) j = (v.dirs c j).markFree) := by
    intro j
    split
    case isFalse => exact .inl rfl
    case isTrue =>
    rw [markLong_eq]
    split
    case isFalse => exact .inl rfl
    case isTrue h =>
    have hlong := h.2 j h.1 (le_refl j)
    rw [update_of_ne (ne_of_lt h.1)] at hlong ⊢
    exact .inr ⟨h.1, hlong, rfl⟩
  refine ⟨rfl, fun b hb => update_of_ne hb _ _, ?_, fun j hj => ?_⟩ <;>
    simp only [Volume.writeCluster, update_self]
  · obtain hsame | ⟨hlt, -⟩ := hentries i
    · rw [hsame, update_self]
    · exact absurd hlt (lt_irrefl i)
  obtain hsame | hmarked := hentries j
  · rw [hsame, update_of_ne hj]
    exact .inl rfl
  · exact .inr hmarked

/-- A marked entry is free, unless it was an end mark. -/
theorem first_markFree (h : d.first ≠ direntEnd) : d.markFree.first = direntFree := by
  cases d with
  | short name attr cluster size =>
    cases name with
    | nil => exact absurd rfl h
    | cons x xs => rfl
  | long => rfl

/-- What is left after a removal comes from what was there. -/
theorem Removed.fromSlot {i} (h : Removed v v' c i) (hlst : Listed fs v c i) (b j : Nat) :
    FromSlot o o (v.dirs b j) (v'.dirs b j) := by
  by_cases hb : b = c
  · subst hb
    have hmark : ∀ d : Dirent, d.first ≠ direntEnd →
        (d.markFree.first = direntEnd ↔ d.first = direntEnd) := by
      intro d hd
      rw [first_markFree hd]
      exact ⟨fun heq => absurd heq (by decide), fun heq => absurd heq hd⟩
    have hfree : ∀ d : Dirent, d.first ≠ direntEnd → ¬ d.markFree.IsEntry :=
      fun d hd hent => hent.1 (first_markFree hd)
    by_cases hj : j = i
    · subst hj
      rw [h.slot]
      exact FromSlot.of_not_isEntry (hmark _ hlst.first_ne) (hfree _ hlst.first_ne)
    obtain hsame | ⟨hlt, -, hmarked⟩ := h.longs j hj
    · rw [hsame]
      exact .of_eq rfl
    · rw [hmarked]
      have hend := hlst.2 j (le_of_lt hlt)
      exact FromSlot.of_not_isEntry (hmark _ hend) (hfree _ hend)
  · rw [h.others b hb]
    exact .of_eq rfl

end Kurios.Fat32
