import Kurios.Fat32.Owner

/-!
What the functions of the FAT32 driver do to the owners of clusters.

There is one lemma for each function. A function that makes files longer or directories
larger gives new clusters a place and keeps the places there are (`Grown`); a chain that is
freed is marked free as a whole (`freeChain_spec`).
-/

namespace Kurios.Fat32

open Base Function Option List

variable {fs : Layout} {v v' v'' : Volume} {R R' : Place → Nat → Prop} {opened : Nat → Nat → Bool}
  {owner owner' owner'' : Nat → Option Place} {p q : Place} {b c new fuel e n : Nat} {cs : List Nat}

theorem getNext_of_valid (hc : IsValid c) : getNext v c = v.fat c := if_pos hc

/-! ### Allocation -/

/-- A free cluster is marked as a chain of its own. -/
structure Allocated (v v' : Volume) (new : Nat) : Prop where
  two_le : 2 ≤ new
  free : v.fat new = freeMark
  fat : v'.fat = update v.fat new eoc
  dirs : v'.dirs = v.dirs

theorem allocLoop_spec {start} (h : allocLoop fs v start fuel c = some new) (hc : 2 ≤ c) :
    new = 0 ∨ (2 ≤ new ∧ v.fat new = freeMark) := by
  induction fuel generalizing c with
  | zero => cases h
  | succ fuel ih =>
    rw [allocLoop] at h
    split at h
    case isTrue hfree =>
      cases h
      exact .inr ⟨hc, hfree⟩
    have hnext : 2 ≤ if c + 1 ≥ fs.totalClusters + 2 then 2 else c + 1 := by
      split
      · exact le_refl 2
      · exact Nat.le_succ_of_le hc
    simp only at h
    generalize (if c + 1 ≥ fs.totalClusters + 2 then 2 else c + 1) = next at h hnext
    split at h
    · exact .inl (some.inj h).symm
    · exact ih h hnext

theorem allocCluster_spec (h : allocCluster fs v = some (new, v')) :
    (new = 0 ∧ v' = v) ∨ Allocated v v' new := by
  unfold allocCluster at h
  split at h
  · cases h
    exact .inl ⟨rfl, rfl⟩
  simp only at h
  split at h
  · cases h
  · cases h
    exact .inl ⟨rfl, rfl⟩
  case h_3 c hne hloop =>
  cases h
  have hstart : 2 ≤ if v.nextFree ≥ 2 then v.nextFree else 2 := by
    split
    · assumption
    · exact le_refl 2
  obtain rfl | ⟨htwo, hfree⟩ := allocLoop_spec hloop hstart
  · exact absurd rfl hne
  · exact .inr ⟨htwo, hfree, rfl, rfl⟩

theorem Allocated.isValid (h : Allocated v v' new)
    (hlimit : ∀ c, badMark ≤ c → v.fat c ≠ freeMark) : IsValid new :=
  ⟨h.two_le, not_le.mp fun hle => hlimit new hle h.free⟩

theorem Allocated.fat_self (h : Allocated v v' new) : v'.fat new = eoc := by
  rw [h.fat, update_self]

theorem Allocated.fat_of_ne (h : Allocated v v' new) (hne : b ≠ new) : v'.fat b = v.fat b := by
  rw [h.fat, update_of_ne hne]

/-- A free cluster has no place. -/
theorem Owned.owner_eq_none (h : Owned fs v R opened owner) (hfree : v.fat b = freeMark) :
    owner b = none := by
  cases hb : owner b with
  | none => rfl
  | some p =>
    have hval := (h.valid b p hb).2
    rw [hfree] at hval
    exact absurd hval (by decide)

theorem Owned.alloc (h : Owned fs v R opened owner) (hnew : Allocated v v' new) :
    Owned fs v' R opened owner ∧ Fresh v' owner new := by
  have howner := h.owner_eq_none hnew.free
  refine ⟨h.frame (fun _ _ hp => hp) (fun b p hb => .inl (hnew.fat_of_ne (ne_of_label hb howner)))
    (fun b p i _ _ => .of_eq (by rw [hnew.dirs])) fun c hc => ?_, howner, hnew.isValid h.limit, ?_⟩
  · by_cases heq : c = new
    · rw [heq, hnew.fat_self]
      decide
    · rw [hnew.fat_of_ne heq]
      exact h.limit c hc
  · rw [hnew.fat_self]
    decide

/-! ### Places stay -/

/-- New clusters have places; those that had one keep it, and directories what they hold.
Clusters in use without a place are left alone. -/
structure Grown (fs : Layout) (R' : Place → Nat → Prop) (opened : Nat → Nat → Bool) (v : Volume)
    (owner : Nat → Option Place) (v' : Volume) (owner' : Nat → Option Place) : Prop where
  owned : Owned fs v' R' opened owner'
  keeps : ∀ b p, owner b = some p → owner' b = some p
  dirs : ∀ b p, owner b = some p → p.kind = .dir → v'.dirs b = v.dirs b
  others : ∀ b, owner b = none → v.fat b ≠ freeMark →
    owner' b = none ∧ v'.fat b = v.fat b ∧ v'.dirs b = v.dirs b

theorem Grown.refl (h : Owned fs v R opened owner) : Grown fs R opened v owner v owner :=
  ⟨h, fun _ _ => id, fun _ _ _ _ => rfl, fun _ hb _ => ⟨hb, rfl, rfl⟩⟩

theorem Grown.trans (h : Grown fs R opened v owner v' owner')
    (h' : Grown fs R' opened v' owner' v'' owner'') : Grown fs R' opened v owner v'' owner'' where
  owned := h'.owned
  keeps b p hb := h'.keeps b p (h.keeps b p hb)
  dirs b p hb hp := (h'.dirs b p (h.keeps b p hb) hp).trans (h.dirs b p hb hp)
  others b hb hfat := by
    obtain ⟨hnone, hfat1, hdirs1⟩ := h.others b hb hfat
    obtain ⟨hnone', hfat2, hdirs2⟩ := h'.others b hnone (hfat1 ▸ hfat)
    exact ⟨hnone', hfat2.trans hfat1, hdirs2.trans hdirs1⟩

section

variable (h : Owned fs v R opened owner)
include h

theorem Owned.grown_alloc (hnew : Allocated v v' new) : Grown fs R opened v owner v' owner := by
  refine ⟨(h.alloc hnew).1, fun _ _ => id, fun b _ _ _ => by rw [hnew.dirs], fun b hb hfat => ?_⟩
  refine ⟨hb, hnew.fat_of_ne ?_, by rw [hnew.dirs]⟩
  rintro rfl
  exact hfat hnew.free

/-- A cluster of a file is written. -/
theorem Owned.writeFile (hc : owner c = some p) (hp : p.kind = .file) (entries : Nat → Dirent) :
    Grown fs R opened v owner (v.writeCluster c entries) owner := by
  have hdirs : ∀ b q, owner b = some q → q.kind = .dir →
      (v.writeCluster c entries).dirs b = v.dirs b := by
    intro b q hb hq
    refine update_of_ne ?_ _ _
    rintro rfl
    rw [hc] at hb
    cases hb
    rw [hp] at hq
    cases hq
  refine ⟨h.frameContents rfl hdirs, fun _ _ => id, hdirs, fun b hb _ => ⟨hb, rfl, ?_⟩⟩
  refine update_of_ne ?_ _ _
  rintro rfl
  rw [hc] at hb
  cases hb

/-! ### Longer chains -/

theorem lastCluster_spec {last} (hc : owner c = some p) (hlast : lastCluster v fuel c = some last) :
    ∃ q, owner last = some q ∧ (q.kind = .file ↔ p.kind = .file) ∧ ¬ IsValid (v.fat last) := by
  induction fuel generalizing c p with
  | zero => cases hlast
  | succ fuel ih =>
    rw [lastCluster, getNext_of_valid (h.valid c p hc).1] at hlast
    split at hlast
    case isTrue hnext =>
      obtain ⟨k, hk, hfile, -⟩ := h.next hc hnext
      obtain ⟨q, hq, hfile', hend⟩ := ih hk hlast
      exact ⟨q, hq, hfile'.trans hfile, hend⟩
    case isFalse hend =>
      cases hlast
      exact ⟨p, hc, Iff.rfl, hend⟩

/-- A new cluster is linked to the last one of the chain. -/
structure Extended (owner : Nat → Option Place) (p : Place) (v v' : Volume) (new : Nat) : Prop where
  exists_last : ∃ v₁ last q, Allocated v v₁ new ∧ owner last = some q ∧
    (q.kind = .file ↔ p.kind = .file) ∧ ¬ IsValid (v₁.fat last) ∧
      v'.fat = update v₁.fat last new ∧ v'.dirs = v.dirs

theorem extendChain_spec (hc : owner c = some p) (hext : extendChain fs v c = some (new, v')) :
    (new = 0 ∧ v' = v) ∨ Extended owner p v v' new := by
  unfold extendChain at hext
  split at hext
  · cases hext
  case h_2 v₁ halloc =>
    cases hext
    obtain ⟨-, rfl⟩ | halloc := allocCluster_spec halloc
    · exact .inl ⟨rfl, rfl⟩
    · exact absurd halloc.two_le (by decide)
  case h_3 new' v₁ hne halloc =>
  obtain ⟨rfl, -⟩ | halloc := allocCluster_spec halloc
  · exact absurd rfl hne
  rw [if_neg (h.valid c p hc).1.ne_zero] at hext
  split at hext
  · cases hext
  case h_2 last hlast =>
  cases hext
  obtain ⟨hown, hfresh⟩ := h.alloc halloc
  obtain ⟨q, hq, hfile, hend⟩ := lastCluster_spec hown hc hlast
  refine .inr ⟨v₁, last, q, halloc, hq, hfile, hend, ?_, halloc.dirs⟩
  have hlt : new < 2 ^ 28 := lt_trans hfresh.valid.2 (by decide)
  exact congrArg (update v₁.fat last) (Nat.mod_eq_of_lt hlt)

omit h in
/-- Nothing is listed in a cluster of zeros. -/
theorem not_listed_zeroCluster (fs : Layout) (v : Volume) (c i : Nat) :
    ¬ Listed fs (v.zeroCluster c) c i := by
  intro hlst
  apply hlst.2 0 zero_le
  simp only [Volume.zeroCluster, Volume.writeCluster, update_self]
  rfl

/-- The new cluster, filled with zeros, has its place at the end of the chain. -/
theorem Owned.extended (hext : Extended owner p v v' new) :
    ∃ owner' k via, Grown fs R opened v owner (v'.zeroCluster new) owner' ∧
      owner' new = some ⟨k, via⟩ ∧ (k = .file ↔ p.kind = .file) := by
  obtain ⟨v₁, last, q, halloc, hlast, hfile, -, hfat, hdirs⟩ := hext.exists_last
  obtain ⟨hown, hfresh⟩ := h.alloc halloc
  have hne : ∀ {b q}, owner b = some q → b ≠ new := fun hb => ne_of_label hb hfresh.owner
  have hdirs' : ∀ b q, owner b = some q → (v'.zeroCluster new).dirs b = v.dirs b := by
    intro b q hb
    rw [← hdirs]
    exact update_of_ne (hne hb) _ _
  have hfat' : (v'.zeroCluster new).fat = update v₁.fat last new := hfat
  have hnewlast : new ≠ last := (hne hlast).symm
  have hfresh' : Fresh (v'.zeroCluster new) owner new := by
    refine ⟨hfresh.owner, hfresh.valid, ?_⟩
    rw [hfat', update_of_ne hnewlast]
    exact hfresh.ended
  have hlink : (v'.zeroCluster new).fat last = new := by
    rw [hfat', update_self]
  have hlimit : ∀ c, badMark ≤ c → (v'.zeroCluster new).fat c ≠ freeMark := by
    intro c hc
    rw [hfat']
    by_cases hcl : c = last
    · rw [hcl, update_self]
      exact hfresh.valid.ne_zero
    · rw [update_of_ne hcl]
      exact hown.limit c hc
  obtain ⟨k, hgr, hkind⟩ := hown.extend hlast hfresh' hlink
    (fun b q hb hbl => by rw [hfat', update_of_ne hbl])
    (fun b q hb _ => by rw [hdirs' b q hb, halloc.dirs]) (not_listed_zeroCluster fs v' new) hlimit
  refine ⟨_, k, _, ⟨hgr, fun b q hb => update_of_label hfresh.owner hb _,
    fun b q hb _ => hdirs' b q hb, fun b hb hused => ?_⟩, update_self _ _ _,
    hkind.trans hfile⟩
  have hbn : b ≠ new := by
    rintro rfl
    exact hused halloc.free
  have hbl : b ≠ last := (ne_of_label hlast hb).symm
  refine ⟨(update_of_ne hbn _ _).trans hb, ?_, ?_⟩
  · rw [hfat', update_of_ne hbl, halloc.fat_of_ne hbn]
  · rw [← hdirs]
    exact update_of_ne hbn _ _

end

/-- `Grown`, with a cluster of a file at the end. -/
def GrownTo (fs : Layout) (R : Place → Nat → Prop) (opened : Nat → Nat → Bool) (v : Volume)
    (owner : Nat → Option Place) (v' : Volume) (c : Nat) : Prop :=
  ∃ owner', Grown fs R opened v owner v' owner' ∧ (c ≠ 0 → ∃ q, owner' c = some q ∧ q.kind = .file)

section

variable (h : Owned fs v R opened owner)
include h

section

variable (hc : owner c = some p) (hp : p.kind = .file)
include hc hp

theorem nextOrExtend_spec (hnext : nextOrExtend fs v c = some (new, v')) :
    GrownTo fs R opened v owner v' new := by
  unfold nextOrExtend at hnext
  rw [getNext_of_valid (h.valid c p hc).1] at hnext
  simp only at hnext
  split at hnext
  case isTrue hval =>
    cases hnext
    obtain ⟨k, hk, hfile, -⟩ := h.next hc hval
    exact ⟨owner, .refl h, fun _ => ⟨_, hk, hfile.mpr hp⟩⟩
  split at hnext
  · cases hnext
  case h_2 new' v₁ hext =>
  obtain ⟨rfl, rfl⟩ | hext := extendChain_spec h hc hext
  · cases hnext
    exact ⟨owner, .refl h, absurd rfl⟩
  obtain ⟨owner', k, via, hgr, hnew, hfile⟩ := h.extended hext
  have hne := (hgr.owned.valid _ _ hnew).1.ne_zero
  rw [if_neg hne] at hnext
  cases hnext
  exact ⟨owner', hgr, fun _ => ⟨_, hnew, hfile.mpr hp⟩⟩

theorem seek_spec (hseek : seek fs n v c = some (new, v')) :
    GrownTo fs R opened v owner v' new := by
  induction n generalizing v c p owner with
  | zero =>
    cases hseek
    exact ⟨owner, .refl h, fun _ => ⟨p, hc, hp⟩⟩
  | succ n ih =>
    rw [seek] at hseek
    split at hseek
    · cases hseek
    case h_2 next v₁ hnext =>
    obtain ⟨owner1, hgr, hfile⟩ := nextOrExtend_spec h hc hp hnext
    split at hseek
    · cases hseek
      exact ⟨owner1, hgr, absurd rfl⟩
    case isFalse hne =>
    obtain ⟨q, hq, hkind⟩ := hfile hne
    obtain ⟨owner2, hgrown', hfile'⟩ := ih hgr.owned hq hkind hseek
    exact ⟨owner2, hgr.trans hgrown', hfile'⟩

theorem writeLoop_spec {src pos left left'}
    (hloop : writeLoop fs src fuel v c pos left = some (left', v')) :
    ∃ owner', Grown fs R opened v owner v' owner' := by
  induction fuel generalizing v c p pos left owner with
  | zero =>
    cases hloop
    exact ⟨owner, .refl h⟩
  | succ fuel ih =>
    rw [writeLoop] at hloop
    split at hloop
    · cases hloop
      exact ⟨owner, .refl h⟩
    have hwr := h.writeFile hc hp (src c)
    simp only at hloop
    split at hloop
    · cases hloop
      exact ⟨owner, hwr⟩
    split at hloop
    · cases hloop
    case h_2 next v₁ hnext =>
    obtain ⟨owner1, hgr, hfile⟩ := nextOrExtend_spec hwr.owned hc hp hnext
    split at hloop
    · cases hloop
      exact ⟨owner1, hwr.trans hgr⟩
    case isFalse hne =>
    obtain ⟨q, hq, hkind⟩ := hfile hne
    obtain ⟨owner2, hgrown'⟩ := ih hgr.owned hq hkind hloop
    exact ⟨owner2, (hwr.trans hgr).trans hgrown'⟩

end

end

/-! ### A first cluster -/

/-- A root pointer more. -/
def addRoot (R : Place → Nat → Prop) (q : Place) (c : Nat) (p : Place) (b : Nat) : Prop :=
  R p b ∨ (p = q ∧ b = c)

/-- A new cluster for a file of its own. -/
theorem Owned.addFile (h : Owned fs v R opened owner) (hnew : Fresh v owner new)
    (hp : p.kind = .file) (hvia : ∀ d, p.via ≠ .next d) :
    Owned fs v (addRoot R p new) opened (update owner new (some p)) :=
  h.add hnew (fun _ _ hq => hq.imp_right fun ⟨hqp, hbn⟩ => ⟨hqp, hbn, hvia⟩)
    (fun hdir => absurd (hp.symm.trans hdir) (by decide))
    (fun _ _ _ hpl => hpl.change (.inl rfl) (fun _ _ => .inl (.of_eq rfl))
      fun _ _ hc _ => update_of_label hnew.owner hc _) h.limit

/-! ### Freed chains -/

theorem chain_zero (h : Linked v.fat IsValid 0 cs e) : cs = [] :=
  (h.unique (.nil not_isValid_zero)).1

section

variable (hchain : Linked v.fat IsValid c cs e)
include hchain

theorem freeChain_spec (hfree : freeChain fuel v c = some v') :
    (∀ b, v'.fat b = if b ∈ cs then freeMark else v.fat b) ∧ v'.dirs = v.dirs := by
  induction cs generalizing fuel v c with
  | nil =>
    cases hchain with
    | nil hinv =>
      cases fuel with
      | zero => cases hfree
      | succ fuel =>
        rw [freeChain, if_neg hinv] at hfree
        cases hfree
        exact ⟨fun b => rfl, rfl⟩
  | cons d cs ih =>
    have hnd := hchain.nodup
    cases hchain with
    | cons hval hrest =>
      cases fuel with
      | zero => cases hfree
      | succ fuel =>
        rw [freeChain, if_pos hval, getNext_of_valid hval] at hfree
        have hnot : d ∉ cs := (nodup_cons.mp hnd).1
        have hrest' : Linked (update v.fat d freeMark) IsValid (v.fat d) cs e := by
          refine hrest.congr fun d' hd' => ?_
          rw [update_of_ne]
          rintro rfl
          exact hnot hd'
        obtain ⟨hfat, hdirs⟩ := ih (v := { setCluster v d freeMark with
          freeClusters :=
            if v.freeClusters ≠ countUnknown then v.freeClusters + 1
            else v.freeClusters }) hrest' hfree
        refine ⟨fun b => ?_, hdirs⟩
        rw [hfat b]
        by_cases hb : b ∈ cs
        · rw [if_pos hb, if_pos (mem_cons_of_mem _ hb)]
        rw [if_neg hb]
        by_cases hbd : b = d
        · rw [hbd, if_pos mem_cons_self]
          exact update_self _ _ _
        · have hmem : b ∉ d :: cs := fun hmem => (mem_cons.mp hmem).elim hbd hb
          rw [if_neg hmem]
          exact update_of_ne hbd _ _

theorem walk_mem (hval : IsValid (walk v n c)) : walk v n c ∈ cs := by
  induction n generalizing c cs with
  | zero =>
    cases hchain with
    | nil hinv => exact absurd hval hinv
    | cons => exact mem_cons_self
  | succ n ih =>
    rw [walk] at hval ⊢
    cases hchain with
    | nil hinv =>
      rw [if_neg hinv] at hval
      exact absurd hval hinv
    | cons hc hrest =>
      rw [if_pos hc, getNext_of_valid hc] at hval ⊢
      exact mem_cons_of_mem _ (ih hrest hval)

/-- The chain of a file is freed. -/
theorem Owned.freed (h : Owned fs v R opened owner) (hc : owner c = some p) (hp : p.kind = .file)
    (hfree : freeChain fuel v c = some v') (hroot : ∀ p b, R' p b → R p b ∧ b ≠ c)
    (hlast : ∀ b, ¬ p.Under v opened b) :
    ∃ owner', Owned fs v' R' opened owner' ∧ v'.dirs = v.dirs ∧
      ∀ b q, owner b = some q → q.kind = .dir → owner' b = some q := by
  obtain ⟨hfat, hdirs⟩ := freeChain_spec hchain hfree
  have hfat' : ∀ b, b ∉ cs → v'.fat b = v.fat b := fun b hb => (hfat b).trans (if_neg hb)
  refine ⟨_, h.drop hc hchain hfat' hroot (fun b q j _ _ _ => .of_eq (by rw [hdirs]))
    fun b hb hunder => hlast b ?_, hdirs, fun b q hb hq => ?_⟩
  · simpa [Place.Under, Counts, hfat' b hb, hdirs] using hunder
  rw [if_neg, hb]
  intro hmem
  obtain ⟨q', hq', hkind⟩ := h.chain_kind hc hchain hmem
  rw [hb] at hq'
  cases hq'
  rw [hq] at hkind
  exact absurd (hkind.mpr hp) (by decide)

end

/-- The end of a file is cut off. -/
theorem cutChain_spec (h : Owned fs v R opened owner) {needed} (hc : owner c = some p)
    (hp : p.kind = .file) (hhead : ∀ d, p.via ≠ .next d) (hcut : cutChain v c needed = some v') :
    ∃ owner', Owned fs v' R opened owner' ∧ v'.dirs = v.dirs ∧
      ∀ b q, owner b = some q → q.kind = .dir → owner' b = some q := by
  unfold cutChain at hcut
  simp only at hcut
  split at hcut
  case isFalse =>
    cases hcut
    exact ⟨owner, h, rfl, fun _ _ hb _ => hb⟩
  case isTrue hval =>
  rw [getNext_of_valid hval] at hcut
  split at hcut
  case isFalse =>
    cases hcut
    exact ⟨owner, h, rfl, fun _ _ hb _ => hb⟩
  case isTrue hnext =>
  obtain ⟨cs, e, hchain⟩ := h.exists_chain hc hhead
  have hmem := walk_mem hchain hval
  generalize walk v (needed - 1) c = d at hcut hnext hmem
  obtain ⟨ds, hsuffix, hchain'⟩ := hchain.suffix hmem
  obtain ⟨q, hq, hkind⟩ := h.chain_kind hc hchain hmem
  obtain ⟨k, hk, hkind', -⟩ := h.next hq hnext
  have hnd := hchain'.nodup
  cases hchain' with
  | cons _ hrest =>
  have hdnot : d ∉ ds := (nodup_cons.mp hnd).1
  have hfat1 : (setCluster v d eoc).fat = update v.fat d eoc := rfl
  have hrest1 : Linked (setCluster v d eoc).fat IsValid (v.fat d) ds e :=
    hrest.congr fun d' hd' => by
      rw [hfat1, update_of_ne]
      rintro rfl
      exact hdnot hd'
  have howned1 : Owned fs (setCluster v d eoc) R opened owner := by
    refine h.frame (fun _ _ hp => hp) (fun b q hb => ?_) (fun _ _ _ _ _ => .of_eq rfl)
      fun b hb => ?_
    · by_cases hbd : b = d
      · rw [hfat1, hbd, update_self]
        exact .inr (by decide)
      · rw [hfat1, update_of_ne hbd]
        exact .inl rfl
    by_cases hbd : b = d
    · rw [hfat1, hbd, update_self]
      decide
    · rw [hfat1, update_of_ne hbd]
      exact h.limit b hb
  have hmark : ¬ IsValid ((setCluster v d eoc).fat d) := by
    rw [hfat1, update_self]
    decide
  have hroot : ∀ p b, R p b → R p b ∧ b ≠ v.fat d := by
    rintro p b hp
    refine ⟨hp, ?_⟩
    rintro rfl
    have hroot := h.labels.root p _ hp
    rw [hk] at hroot
    cases hroot
    exact h.heads _ _ d hp rfl
  have hfreed := howned1.freed hrest1 hk (hkind'.mpr (hkind.mpr hp)) hcut hroot fun b hunder => by
    obtain ⟨hnext, hval⟩ | ⟨i, ⟨⟩, -⟩ := hunder
    · cases hnext
      exact hmark hval
  exact hfreed

end Kurios.Fat32
