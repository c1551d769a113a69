import Kurios.Vm.Clone

/-!
Exact accounting of anonymous memory.

As long as every page was made by an anonymous fault or shared by `as_clone`, the
reference count of a frame is the number of pages that map it, and a writable page has
its frame for itself (`Exact`). Each operation keeps that, and does to the contents of
the pages what it would do if every address space had a memory of its own.
-/

namespace Kurios.Vm

open Base Pmm Function Finset Option

variable {k : Nat × Nat} {dst x : Option Nat} {vmas : Option (List Region)} {src : Nat}
  {words : Nat → Word} {s s' : VmState} {A A' : Arena} {L L' : Ledger} {V V' : View} {e : Word}

/-- Page tables whose frames are counted exactly. -/
structure Exact (s : VmState) (A : Arena) (L : Ledger) (V : View) : Prop extends
    Mapped s A L V where
  exact : ∀ f, L.refs f = mapCount s V f
  exclusive : ∀ k e, leaf s V k = some e → has e pteWritable = true → L.refs (pteFrame e) = 1

/-- What a page of an address space holds. -/
def contents (s : VmState) (V : View) (a v : Nat) : Option (Nat → Word) :=
  (frameAt s V (a, v)).map s.mem

/-- The contents of one page are replaced. -/
def setPage (p : Nat → Nat → Option (Nat → Word)) (a v : Nat) (page : Option (Nat → Word)) :
    Nat → Nat → Option (Nat → Word) :=
  update p a (update (p a) v page)

theorem setPage_apply (p : Nat → Nat → Option (Nat → Word)) (a v : Nat) (page : Option (Nat → Word))
    (b u : Nat) : setPage p a v page b u = if (b, u) = (a, v) then page else p b u := by
  by_cases hb : b = a
  · subst hb
    by_cases hu : u = v
    · subst hu
      simp [setPage]
    · simp [setPage, hu]
  · simp [setPage, hb]

/-- One page is redirected. -/
theorem mapCount_update (hk : k ∈ V.keys) (hlive : V'.live = V.live)
    (hfrs : frameAt s' V' = update (frameAt s V) k x) (f : Nat) :
    mapCount s' V' f + (if frameAt s V k = some f then 1 else 0) =
      mapCount s V f + (if x = some f then 1 else 0) := by
  have hkeys : V'.keys = V.keys := by rw [View.keys, hlive, View.keys]
  rw [mapCount, hkeys, hfrs, mapCount]
  exact hits_update hk (frameAt s V) x f

/-- The pages of one more address space. -/
theorem hits_insert {live d} (hd : d ∉ live) (ref : Nat × Nat → Option Nat)
    (f : Nat) : hits (insert d live ×ˢ range userPages) ref f =
      hits (live ×ˢ range userPages) ref f + hits ({d} ×ˢ range userPages) ref f := by
  have hdisj : Disjoint (live ×ˢ range userPages) ({d} ×ˢ range userPages) := by
    rw [disjoint_left]
    rintro ⟨b, u⟩ hk hk'
    simp only [mem_product, mem_singleton] at hk hk'
    exact hd (hk'.1 ▸ hk.1)
  rw [insert_eq, union_comm, union_product, hits_union hdisj]

/-- A new address space maps nothing. -/
theorem mapCount_created {a} (h : Paging s A L V) (ha : a ∉ V.live)
    (hc : Created a vmas s A L V s' A' L' V') (f : Nat) : mapCount s' V' f = mapCount s V f := by
  have hfrs := frameAt_congr (funext hc.leaf)
  have hnew : hits ({a} ×ˢ range userPages) (frameAt s V) f = 0 := by
    refine hits_eq_zero ?_
    rintro ⟨b, u⟩ hk
    simp only [mem_product, mem_singleton] at hk
    obtain ⟨rfl, -⟩ := hk
    rw [Mapped.frameAt_none h ha]
    simp
  rw [mapCount, mapCount, hfrs, View.keys, View.keys, hc.live, hits_insert ha, hnew, add_zero]

/-- A clone maps what its source maps. -/
theorem mapCount_forked (hf : Forked src dst vmas s A L V s' A' L' V') (f : Nat) :
    mapCount s' V' f = mapCount s V f + dst.elim 0 fun _ => countIn s V src f := by
  cases dst with
  | none =>
    have hfrs : frameAt s' V' = frameAt s V := by
      funext k
      rw [hf.frames, if_neg (by simp)]
    have hlive : V'.live = V.live := hf.live
    have hkeys : V'.keys = V.keys := by rw [View.keys, hlive, View.keys]
    simp [mapCount, hfrs, hkeys]
  | some d =>
    have hd : d ∉ V.live := hf.fresh d rfl
    have hlive : V'.live = insert d V.live := hf.live
    rw [mapCount, mapCount, View.keys, View.keys, hlive, hits_insert hd]
    refine congrArg₂ (· + ·) ?_ ?_
    · refine hits_congr ?_
      rintro ⟨b, u⟩ hk
      have hb : b ≠ d := fun he => hd (he ▸ (mem_product.mp hk).1)
      rw [hf.frames, if_neg fun hc => hb (some.inj hc).symm]
    · rw [elim_some, countIn]
      refine hits_row (fun u _ => ?_) f
      rw [hf.frames, if_pos rfl]

section

variable {old e : Word} {f g q : Nat} (hw : Written k f g e words s A L V s' A' L')
include hw

/-- A write takes no frame its last reference. -/
theorem Written.refs_pos (hq : 0 < L.refs q) : 0 < L'.refs q := by
  obtain ⟨-, hrefs, -⟩ | ⟨-, hmany, hrefs⟩ := hw.how <;> rw [hrefs]
  · exact hq
  by_cases hqf : q = f
  · rw [hqf, update_self]
    omega
  · rw [update_of_ne hqf]
    exact update_one_pos (.inr hq)

/-- If a write copies a page, its frame loses a reference with the page, and the copy has one of
each. -/
theorem Written.balance (h : Mapped s A L V) (hf : frameAt s V k = some f) (q : Nat) :
    L'.refs q + mapCount s V q = L.refs q + mapCount s' V q := by
  have hfrs := frameAt_update hw.leaf
  rw [map_some, hw.frame] at hfrs
  have hcnt := mapCount_update (h.key_mem hf) rfl hfrs q
  rw [hf] at hcnt
  obtain ⟨rfl, hrefs, -⟩ | ⟨hzero, hmany, hrefs⟩ := hw.how
  · rw [hrefs]
    omega
  have hne : f ≠ g := by
    rintro rfl
    omega
  rw [hrefs]
  by_cases hq : q = f
  · subst hq
    rw [if_pos rfl, if_neg fun hc => hne (some.inj hc).symm] at hcnt
    rw [update_self]
    omega
  rw [if_neg fun hc => hq (some.inj hc).symm, add_zero] at hcnt
  rw [update_of_ne hq, hcnt]
  by_cases hqg : q = g
  · subst hqg
    rw [update_self, if_pos rfl, hzero]
    omega
  · rw [update_of_ne hqg, if_neg fun hc => hqg (some.inj hc).symm, add_zero]

end

/-- A page that had no frame got one. -/
theorem mapCount_mapped (hk : k ∈ V.keys) (hlive : V'.live = V.live) (hnone : leaf s V k = none)
    (hleaf : leaf s' V' = update (leaf s V) k (some e)) (q : Nat) :
    mapCount s' V' q = mapCount s V q + if pteFrame e = q then 1 else 0 := by
  have hcnt := mapCount_update hk hlive (frameAt_update hleaf) q
  have hframe : frameAt s V k = none := frameAt_of_leaf hnone
  rw [hframe, if_neg (by simp), add_zero] at hcnt
  rw [hcnt]
  simp

namespace Exact

variable {a v f : Nat}

section

variable (h : Exact s A L V)
include h

theorem bound (f : Nat) : L.refs f ≤ mapCount s V f + 1 := by
  rw [h.exact]
  omega

/-- A frame with one reference is mapped at one page. -/
theorem page_unique {j} (hone : L.refs f ≤ 1)
    (hj : frameAt s V j = some f) (hk : frameAt s V k = some f) : j = k :=
  eq_of_hits_le_one ((h.exact f).symm.trans_le hone) (h.key_mem hj) (h.key_mem hk) hj hk

theorem countIn_eq_zero (hone : L.refs f = 1) (hk : frameAt s V k = some f)
    (hka : k.1 ≠ a) : countIn s V a f = 0 := by
  refine hits_eq_zero ?_
  rintro ⟨b, u⟩ hbu hframe
  simp only [mem_product, mem_singleton] at hbu
  have hku := h.page_unique hone.le hk hframe
  exact hka (by rw [hku]; exact hbu.1)

/-- Nothing that a page can see happened. -/
theorem unchanged (hu : Unchanged s A L V s' A' L' V') :
    Exact s' A' L' V' ∧ contents s' V' = contents s V := by
  have hfrs := frameAt_congr hu.leaf
  refine ⟨⟨hu.mapped, fun q => ?_, fun k e hk hw => ?_⟩, ?_⟩
  · rw [hu.refs, h.exact, mapCount, mapCount, hfrs, View.keys, View.keys, hu.live]
  · rw [hu.refs]
    exact h.exclusive k e (hu.leaf ▸ hk) hw
  · funext b u
    rw [contents, contents, hfrs]
    exact map_congr fun q hq => hu.data q (h.counted _ _ hq)

end

/-- One page is redirected, and the memory of the others is as before. -/
theorem contents_update (hfrs : frameAt s' V' = update (frameAt s V) (a, v) x)
    (hdata : ∀ k q, k ≠ (a, v) → frameAt s V k = some q → s'.mem q = s.mem q) :
    contents s' V' = setPage (contents s V) a v (x.map s'.mem) := by
  funext b u
  rw [setPage_apply, contents, hfrs]
  by_cases hk : (b, u) = (a, v)
  · rw [if_pos hk, hk, update_self]
  · rw [if_neg hk, update_of_ne hk, contents]
    exact map_congr fun q => hdata _ q hk

section

variable (h : Exact s A L V)
include h

/-- A page that had no frame got one of its own. -/
theorem freshPage {flags} (ha : a ∈ V.live) (hv : v < userPages)
    (hnone : leaf s V (a, v) = none) (hp : FreshPage (a, v) f flags words s A L V s' A' L' V') :
    Exact s' A' L' V' ∧ contents s' V' = setPage (contents s V) a v (some words) := by
  have hkey : (a, v) ∈ V.keys := mem_product.mpr ⟨ha, mem_range.mpr hv⟩
  have hent : pteFrame (mapEntry f flags) = f :=
    pteFrame_mapEntry flags (Mapped.inWindow_lt hp.window)
  have hfrs := frameAt_update hp.leaf
  rw [map_some, hent] at hfrs
  refine ⟨⟨hp.mapped, fun q => ?_, fun k e hk hw => ?_⟩, ?_⟩
  · rw [mapCount_mapped hkey hp.live hnone hp.leaf, hent, hp.refs]
    by_cases hq : q = f
    · subst hq
      rw [update_self, if_pos rfl, ← h.exact, hp.unused]
    · rw [update_of_ne hq, if_neg (Ne.symm hq), h.exact, add_zero]
  · rw [hp.leaf] at hk
    rw [hp.refs]
    rcases update_cases hk with ⟨-, ⟨⟩⟩ | ⟨-, hk⟩
    · rw [hent, update_self]
    have hcnt := h.counted k _ (frameAt_of_leaf hk)
    have hne : pteFrame e ≠ f := fun he => hcnt.ne' (he ▸ hp.unused)
    rw [update_of_ne hne]
    exact h.exclusive k e hk hw
  · rw [contents_update hfrs fun k q _ hk => hp.data q (h.counted k q hk), map_some, hp.page]

/-- `as_free_page`. -/
theorem asFreePage {virt} (ha : a ∈ V.live) (hv : pageOf virt < userPages) :
    ∃ A' L', Exact (Vm.asFreePage s a virt) A' L' V ∧
      contents (Vm.asFreePage s a virt) V = setPage (contents s V) a (pageOf virt) none ∧
      SameMachine s.pmm A (Vm.asFreePage s a virt).pmm A' ∧ L'.others = L.others := by
  have hrest : ∀ k f, k ≠ (a, pageOf virt) → frameAt s V (a, pageOf virt) = some f →
      frameAt s V k = some f → 1 < L.refs f := by
    intro k f hne hf hk
    by_contra hle
    exact hne (h.page_unique (not_lt.mp hle) hk hf)
  obtain ⟨hnone, heq⟩ | ⟨f, A', L', hf, hkept, hleaf, hrefs⟩ := h.toMapped.asFreePage ha hv hrest
  · rw [heq]
    refine ⟨A, L, h, ?_, .refl _ _, rfl⟩
    funext b u
    rw [setPage_apply]
    split
    · next hbu => rw [contents, hbu, hnone]; rfl
    · rfl
  have hkey := h.key_mem hf
  have hfrs := frameAt_update hleaf
  refine ⟨A', L', ⟨hkept.mapped, fun q => ?_, fun k e hk hw => ?_⟩, ?_, hkept.machine, hkept.others⟩
  · have hcnt := mapCount_update hkey rfl hfrs q
    rw [hf, map_none, if_neg (some_ne_none q).symm, add_zero, ← h.exact] at hcnt
    rw [hrefs]
    by_cases hq : q = f
    · subst hq
      rw [if_pos rfl] at hcnt
      rw [update_self]
      omega
    · rw [if_neg fun hc => hq (some.inj hc).symm, add_zero] at hcnt
      rw [update_of_ne hq, hcnt]
  · rw [hleaf] at hk
    have hka : k ≠ (a, pageOf virt) := by
      rintro rfl
      rw [update_self] at hk
      cases hk
    rw [update_of_ne hka] at hk
    have hone := h.exclusive k e hk hw
    have hne : pteFrame e ≠ f := by
      rintro rfl
      exact hka (h.page_unique hone.le (frameAt_of_leaf hk) hf)
    rw [hrefs, update_of_ne hne, hone]
  · rw [contents_update hfrs fun k q _ hk => hkept.data q (h.counted k q hk)]
    rfl

/-- A user write. -/
theorem written {old g} (hleaf : leaf s V (a, v) = some old)
    (hw : Written (a, v) (pteFrame old) g e words s A L V s' A' L') :
    Exact s' A' L' V ∧ contents s' V = setPage (contents s V) a v (some words) := by
  have hf := frameAt_of_leaf hleaf
  have hfrs := frameAt_update hw.leaf
  rw [map_some, hw.frame] at hfrs
  have hprivate : ∀ k q, k ≠ (a, v) → frameAt s V k = some q → q ≠ g := by
    rintro k q hk hq rfl
    obtain ⟨rfl, -, hone | ⟨e₀, he₀, hw₀⟩⟩ | ⟨hzero, -, -⟩ := hw.how
    · exact hk (h.page_unique hone.le hq hf)
    · obtain rfl : old = e₀ := some.inj (hleaf.symm.trans he₀)
      exact hk (h.page_unique (h.exclusive _ _ hleaf hw₀).le hq hf)
    · exact (h.counted k q hq).ne' hzero
  have hcont : contents s' V = setPage (contents s V) a v (some words) := by
    rw [contents_update hfrs fun k q hk hq =>
      hw.data q (hprivate k q hk hq) (h.counted k q hq), map_some, hw.page]
  refine ⟨⟨hw.mapped, fun q => ?_, fun k e₁ hk hw₁ => ?_⟩, hcont⟩
  · have hbalance := hw.balance h.toMapped hf q
    have hexact := h.exact q
    omega
  rw [hw.leaf] at hk
  rcases update_cases hk with ⟨-, ⟨⟩⟩ | ⟨hka, hk⟩
  · rw [hw.frame]
    obtain ⟨rfl, hrefs, hone | ⟨e₀, he₀, hw₀⟩⟩ | ⟨hzero, hmany, hrefs⟩ := hw.how
    · rw [hrefs, hone]
    · obtain rfl : old = e₀ := some.inj (hleaf.symm.trans he₀)
      rw [hrefs, h.exclusive _ _ hleaf hw₀]
    have hne : g ≠ pteFrame old := by
      rintro rfl
      omega
    rw [hrefs, update_of_ne hne, update_self]
  have hone := h.exclusive k e₁ hk hw₁
  obtain ⟨-, hrefs, -⟩ | ⟨hzero, hmany, hrefs⟩ := hw.how
  · rw [hrefs, hone]
  have hneg : pteFrame e₁ ≠ g := hprivate k _ hka (frameAt_of_leaf hk)
  have hnef : pteFrame e₁ ≠ pteFrame old := by
    intro he
    rw [he] at hone
    omega
  rw [hrefs, update_of_ne hnef, update_of_ne hneg, hone]

/-! ### Address spaces come and go -/

/-- `as_create`. -/
theorem created (ha : a ∉ V.live) (hc : Created a vmas s A L V s' A' L' V') :
    Exact s' A' L' V' ∧ contents s' V' = update (contents s V) a fun _ => none := by
  have hfrs := frameAt_congr (funext hc.leaf)
  refine ⟨⟨h.toMapped.created hc, fun q => ?_, fun k e hk hw => ?_⟩, ?_⟩
  · rw [hc.refs, h.exact, mapCount_created h.toPaging ha hc]
  · rw [hc.refs]
    exact h.exclusive k e (hc.leaf k ▸ hk) hw
  funext b u
  by_cases hb : b = a
  · subst hb
    rw [update_self, contents, hfrs, Mapped.frameAt_none h.toPaging ha]
    rfl
  · rw [update_of_ne hb, contents, contents, hfrs]
    exact map_congr fun q hq => hc.data q (h.counted _ _ hq)

/-- `as_clone`. -/
theorem forked (hf : Forked src dst vmas s A L V s' A' L' V') :
    Exact s' A' L' V' ∧
      contents s' V' = dst.elim (contents s V) fun d =>
        update (contents s V) d (contents s V src) := by
  have hdata : ∀ k q, frameAt s V k = some q → s'.mem q = s.mem q := fun k q hk =>
    hf.data q (h.counted k q hk)
  refine ⟨⟨hf.mapped, fun q => ?_, fun k e hk hw => ?_⟩, ?_⟩
  · rw [hf.refs, h.exact, mapCount_forked hf]
  · obtain ⟨hold, hkeys⟩ := hf.writable k e hk hw
    have hone := h.exclusive k e hold hw
    rw [hf.refs, hone]
    cases dst with
    | none => rfl
    | some d =>
      -- The frame of a writable page is not among those of the source.
      rw [elim_some, h.countIn_eq_zero hone (frameAt_of_leaf hold) (hkeys d rfl).1]
  funext b u
  rw [contents, hf.frames]
  cases dst with
  | none =>
    exact map_congr (hdata _)
  | some d =>
    rw [elim_some]
    by_cases hb : b = d
    · subst hb
      rw [if_pos rfl, update_self, contents]
      exact map_congr (hdata _)
    · rw [if_neg fun hc => hb (some.inj hc).symm, update_of_ne hb, contents]
      exact map_congr (hdata _)

end

/-- The pages of one address space and the rest. -/
theorem mapCount_split (ha : a ∈ V.live) (f : Nat) : mapCount s V f =
      hits ((V.live.erase a) ×ˢ range userPages) (frameAt s V) f + countIn s V a f := by
  rw [mapCount, View.keys, countIn, ← hits_insert (notMem_erase a V.live), insert_erase ha]

/-- `as_destroy`. -/
theorem asDestroy (h : Exact s A L V) (ha : a ∈ V.live) :
    ∃ A' L' V', Destroyed a s A L V (Vm.asDestroy s a) A' L' V' ∧
      Exact (Vm.asDestroy s a) A' L' V' ∧
      contents (Vm.asDestroy s a) V' = update (contents s V) a fun _ => none := by
  have hsplit := fun f => mapCount_split (s := s) ha f
  obtain ⟨A', L', V', hd⟩ := h.toMapped.asDestroy ha
    (fun f => by rw [h.exact, hsplit]; omega)
    fun k f hk hkf => by
      have hpos : 0 < hits ((V.live.erase a) ×ˢ range userPages) (frameAt s V) f := by
        have hkey := mem_product.mp (h.key_mem hkf)
        exact hits_pos_iff.mpr ⟨k, mem_product.mpr ⟨mem_erase.mpr ⟨hk, hkey.1⟩, hkey.2⟩, hkf⟩
      rw [h.exact, hsplit]
      omega
  have hfrs : ∀ k, frameAt (Vm.asDestroy s a) V' k =
      if k.1 = a then none else frameAt s V k := by
    intro k
    rw [frameAt, hd.leaf]
    split <;> rfl
  refine ⟨A', L', V', hd, ⟨hd.mapped, fun q => ?_, fun k e hk hw => ?_⟩, ?_⟩
  · rw [hd.refs, h.exact, hsplit, Nat.add_sub_cancel, mapCount, View.keys, hd.live]
    refine hits_congr ?_
    rintro ⟨b, u⟩ hk
    have hb := ne_of_mem_erase (mem_product.mp hk).1
    rw [hfrs, if_neg hb]
  · rw [hd.leaf] at hk
    split at hk
    · cases hk
    next hka =>
    have hone := h.exclusive k e hk hw
    rw [hd.refs, h.countIn_eq_zero hone (frameAt_of_leaf hk) hka, hone]
  funext b u
  rw [contents, hfrs, hd.mem]
  by_cases hb : b = a
  · subst hb
    rw [if_pos rfl, update_self]
    rfl
  · rw [if_neg hb, update_of_ne hb, contents]

end Exact

end Kurios.Vm
