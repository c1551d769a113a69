import Kurios.Vm.Sharing

/-!
Shared file mappings, with `as_clone`.

A shared writable mapping maps the frame of the page cache writable, so whoever maps the
page sees every write. `as_clone` turns every writable page into a COW page, shared or
not, and the two processes part at the next write. `shared_mappings_coherent` is what
remains: processes that clone before they touch their shared pages find each other in
the page cache.
-/

namespace Kurios.Vm

open Base Pmm Function Option Finset Bool

variable {addr src virt a : Nat} {r : Region} {newVmas vmas : Option (List Region)}
  {handle : Option Nat} {s : VmState}

/-- `VMA_SHARED` and `VMA_WRITE`. -/
def Region.sharedWritable (r : Region) : Bool := r.flags.shared && r.flags.write

/-- Areas start and end at page boundaries, as `vma_create` makes them, and the shared
writable ones are backed by files. -/
def GoodAreas (vmas : Option (List Region)) : Prop :=
  ∀ areas ∈ vmas, ∀ r ∈ areas, pageSize ∣ r.start ∧ pageSize ∣ r.stop ∧
    (r.sharedWritable = true → r.fileBacked = true)

/-- Processes clone only while none of their shared writable pages is present, new areas
leave the areas of present pages as they are, and there is memory for the cache entries
of shared pages. -/
def VmHistory.SharedSafe (h : VmHistory) : VmCall → Prop
  | .create _ vmas => GoodAreas vmas
  | .setVmas as vmas => GoodAreas vmas ∧
    ∀ v < userPages, presentPte h.state as (v * pageSize) ≠ none →
      (vmas.bind fun areas => findRegion areas (v * pageSize)) = regionAt h.state as (v * pageSize)
  | .fault as addr _ allocated => addr < 2 ^ 47 ∧
    ∀ r ∈ regionAt h.state as addr, r.sharedWritable = true → allocated = true
  | .clone src _ newVmas _ => (newVmas = none ∨ newVmas = some []) ∧
    ∀ v < userPages, presentPte h.state src (v * pageSize) ≠ none →
      ∀ r ∈ regionAt h.state src (v * pageSize), r.sharedWritable = false
  | .write _ virt _ => virt < 2 ^ 47
  | .freePage .. | .destroy .. | .cacheInvalidate .. => False
  | _ => True

/-- A page of a shared writable area maps the frame of the page cache, writable. -/
structure SharedInv (s : VmState) (A : Arena) (L : Ledger) (V : View) : Prop extends
    ForkInv s A L V where
  areas : ∀ a ∈ V.live, GoodAreas (s.spaces a).vmas
  shared : ∀ a v e r, leaf s V (a, v) = some e → regionAt s a (v * pageSize) = some r →
    r.sharedWritable = true →
    cacheFrame s r.file (r.pageFileOffset (v * pageSize)) = some (pteFrame e) ∧
      has e pteWritable = true

/-! ### Areas -/

/-- All addresses of a page are in the same area. -/
theorem GoodAreas.findRegion_page {areas} (h : GoodAreas (some areas)) (virt : Nat) :
    findRegion areas (pageOf virt * pageSize) = findRegion areas virt := by
  refine List.find?_congr fun r hr => ?_
  obtain ⟨⟨i, hi⟩, ⟨j, hj⟩, -⟩ := h areas rfl r hr
  have hiff : (r.start ≤ pageOf virt * pageSize ∧ pageOf virt * pageSize < r.stop) ↔
      (r.start ≤ virt ∧ virt < r.stop) := by
    simp only [pageOf, pageSize] at hi hj ⊢
    omega
  exact decide_eq_decide.mpr hiff

theorem GoodAreas.regionAt_page (h : GoodAreas (s.spaces a).vmas) (virt : Nat) :
    regionAt s a (pageOf virt * pageSize) = regionAt s a virt := by
  unfold regionAt
  cases hvmas : (s.spaces a).vmas with
  | none => rfl
  | some areas =>
    rw [hvmas] at h
    exact h.findRegion_page virt

theorem Region.pageFileOffset_page (r : Region) (virt : Nat) :
    r.pageFileOffset (pageOf virt * pageSize) = r.pageFileOffset virt := by
  have hpage : pageOf virt * pageSize / 4096 = virt / 4096 := pageOf_mul _
  rw [pageFileOffset, pageFileOffset, alignDown_pageSize, alignDown_pageSize, hpage]

theorem GoodAreas.fileBacked (h : GoodAreas (s.spaces a).vmas) (hr : regionAt s a addr = some r)
    (hsh : r.sharedWritable = true) : r.fileBacked = true := by
  obtain ⟨areas, hvmas, hfind⟩ := bind_eq_some_iff.mp hr
  exact (h areas hvmas r (List.mem_of_find?_eq_some hfind)).2.2 hsh

theorem GoodAreas.cloned (h : GoodAreas vmas) (hnew : newVmas = none ∨ newVmas = some [])
    (cloned : Bool) : GoodAreas (clonedVmas vmas newVmas cloned) := by
  cases vmas with
  | none =>
    rcases hnew with rfl | rfl
    · rintro areas ⟨⟩
    · rintro areas ⟨⟩ r hr
      cases hr
  | some areas =>
    cases cloned with
    | true => exact h
    | false => rintro areas ⟨⟩

variable {cloned : Bool}

/-- A clone has no area that its source does not have. -/
theorem regionAt_cloned (hnew : newVmas = none ∨ newVmas = some [])
    (hr : (clonedVmas vmas newVmas cloned).bind (fun areas => findRegion areas addr) = some r) :
    vmas.bind (fun areas => findRegion areas addr) = some r := by
  cases vmas with
  | none =>
    rcases hnew with rfl | rfl <;> cases hr
  | some areas =>
    cases cloned with
    | true => exact hr
    | false => cases hr

namespace SharedInv

variable {s s' : VmState} {A A' : Arena} {L L' : Ledger} {V V' : View} {a : Nat}

section

variable (h : SharedInv s A L V)
include h

theorem recache {c} (hkeys : SameKeys s.cache c) : SharedInv { s with cache := c } A L V := by
  refine ⟨h.toForkInv.recache hkeys, h.areas, fun b v e r hk hr hsh => ?_⟩
  rw [SameKeys.cacheFrame hkeys]
  exact h.shared b v e r hk hr hsh

theorem others_move {m others} (hmach : SameMachine s.pmm A m A')
    (hacc : Accounts m A' { L with others := others }) :
    SharedInv { s with pmm := m } A' { L with others := others } V where
  toForkInv := h.toForkInv.others_move hmach hacc
  __ := h

theorem created (ha : a ∉ V.live) (hgood : GoodAreas vmas)
    (hc : Created a vmas s A L V s' A' L' V') : SharedInv s' A' L' V' := by
  refine ⟨h.toForkInv.created ha hc, fun b hb => ?_, fun b v e r hk hr hsh => ?_⟩
  · by_cases hba : b = a
    · rw [hba, hc.space.2]
      exact hgood
    · rw [hc.spaces b hba]
      rw [hc.live] at hb
      exact h.areas b (mem_of_mem_insert_of_ne hb hba)
  rw [hc.leaf] at hk
  have hba : b ≠ a := fun he => ha (he ▸ (h.leaf_key hk).1)
  have hkeys := SameKeys.of_eq hc.cache
  rw [regionAt, hc.spaces b hba] at hr
  rw [hkeys.cacheFrame]
  exact h.shared b v e r hk hr hsh

theorem setVmas {as} (has : as ∈ V.live) (hgood : GoodAreas vmas)
    (hsame : ∀ v < userPages, presentPte s as (v * pageSize) ≠ none →
      (vmas.bind fun areas => findRegion areas (v * pageSize)) = regionAt s as (v * pageSize)) :
    SharedInv (s.modifySpace as fun a => { a with vmas := vmas }) A L V := by
  have hvmas : ∀ b, ((s.modifySpace as fun a => { a with vmas := vmas }).spaces b).vmas =
      if b = as then vmas else (s.spaces b).vmas := by
    intro b
    by_cases hb : b = as
    · subst hb
      simp [VmState.modifySpace]
    · simp [VmState.modifySpace, hb]
  refine ⟨⟨h.toMapped.setVmas as vmas, h.cached, h.bound⟩, fun b hb => ?_,
    fun b v e r hk hr hsh => ?_⟩
  · rw [hvmas]
    split
    · exact hgood
    · exact h.areas b hb
  have hleaf : leaf s V (b, v) = some e := hk
  refine h.shared b v e r hleaf ?_ hsh
  rw [regionAt, hvmas] at hr
  split at hr
  · next hb =>
    subst hb
    have hv := (h.leaf_key hleaf).2
    rw [← hsame v hv ?_]
    · exact hr
    · rw [Mapped.presentPte_eq h.toPaging has ((pageOf_mul v).symm ▸ hv), pageOf_mul, hleaf]
      exact some_ne_none e
  · exact hr

theorem faulted {allocated} (ha : a ∈ V.live)
    (hsafe : ∀ r ∈ regionAt s a virt, r.sharedWritable = true → allocated = true)
    (hf : Faulted a virt allocated s A L V s' A' L' V') : SharedInv s' A' L' V' := by
  have hregions : ∀ b addr, regionAt s' b addr = regionAt s b addr := by
    intro b addr
    rw [regionAt, hf.spaces, regionAt]
  have hold : ∀ b v e r, leaf s V (b, v) = some e → regionAt s' b (v * pageSize) = some r →
      r.sharedWritable = true →
      cacheFrame s' r.file (r.pageFileOffset (v * pageSize)) = some (pteFrame e) ∧
        has e pteWritable = true := by
    intro b v e r hk hr hsh
    rw [hregions] at hr
    obtain ⟨hframe, hw⟩ := h.shared b v e r hk hr hsh
    exact ⟨hf.grows _ _ _ hframe, hw⟩
  refine ⟨hf.inv, fun b hb => ?_, fun b v e r hk hr hsh => ?_⟩
  · rw [hf.spaces]
    exact h.areas b (hf.live ▸ hb)
  obtain hleaf | ⟨r', f, hreg, hwindow, hleaf, hcache, -⟩ := hf.leaf <;> rw [hleaf] at hk
  · exact hold b v e r hk hr hsh
  rcases update_cases hk with ⟨hkey, ⟨⟩⟩ | ⟨-, hk⟩
  · obtain ⟨rfl, rfl⟩ := Prod.mk.inj hkey
    -- The area of the page is that of the fault.
    rw [hregions, (h.areas b ha).regionAt_page] at hr
    obtain rfl : r' = r := some.inj (hreg.symm.trans hr)
    have hfile := (h.areas b ha).fileBacked hr hsh
    have hallocated := hsafe r' hr hsh
    rw [Region.pageFileOffset_page, pteFrame_mapEntry _ (Mapped.inWindow_lt hwindow)]
    refine ⟨hcache hfile hallocated, ?_⟩
    obtain ⟨hsharedFlag, hwrite⟩ : r'.flags.shared = true ∧ r'.flags.write = true := by
      simpa [Region.sharedWritable] using hsh
    rw [has_writable_mapEntry, Region.has_writable, hwrite, hsharedFlag, Bool.or_true]
    rfl
  · exact hold b v e r hk hr hsh

theorem forked {dst} (hsrc : src ∈ V.live) (hnew : newVmas = none ∨ newVmas = some [])
    (hsafe : ∀ v < userPages, presentPte s src (v * pageSize) ≠ none →
      ∀ r ∈ regionAt s src (v * pageSize), r.sharedWritable = false)
    (hf : Forked src dst (clonedVmas (s.spaces src).vmas newVmas cloned) s A L V s' A' L' V') :
    SharedInv s' A' L' V' := by
  -- No page of the source is shared and writable.
  have hprivate : ∀ v r, frameAt s V (src, v) ≠ none → regionAt s src (v * pageSize) = some r →
      r.sharedWritable = false := by
    intro v r hframe hr
    obtain ⟨f, hframe⟩ := ne_none_iff_exists'.mp hframe
    obtain ⟨e, hleaf, -⟩ := map_eq_some_iff.mp hframe
    have hv := (h.leaf_key hleaf).2
    refine hsafe v hv ?_ r hr
    rw [Mapped.presentPte_eq h.toPaging hsrc ((pageOf_mul v).symm ▸ hv), pageOf_mul, hleaf]
    exact some_ne_none e
  refine ⟨h.toForkInv.forked hf, fun b hb => ?_, fun b v e r hk hr hsh => ?_⟩
  · by_cases hd : dst = some b
    · rw [hf.vmas b hd]
      exact (h.areas src hsrc).cloned hnew cloned
    have hlive : b ∈ V.live := by
      rw [hf.live] at hb
      cases dst with
      | none => exact hb
      | some d => exact mem_of_mem_insert_of_ne hb fun he => hd (congrArg some he.symm)
    rw [hf.spaces b hlive]
    exact h.areas b hlive
  have hpres : frameAt s' V' (b, v) ≠ none := by
    rw [frameAt_of_leaf hk]
    exact some_ne_none _
  rw [hf.frames] at hpres
  by_cases hd : dst = some b
  · rw [if_pos hd] at hpres
    rw [regionAt, hf.vmas b hd] at hr
    rw [hprivate v r hpres (regionAt_cloned hnew hr)] at hsh
    cases hsh
  rw [if_neg hd] at hpres
  obtain ⟨f, hframe⟩ := ne_none_iff_exists'.mp hpres
  have hlive := (mem_product.mp (h.key_mem hframe)).1
  rw [regionAt, hf.spaces b hlive] at hr
  by_cases hb : b = src
  · subst hb
    rw [hprivate v r hpres hr] at hsh
    cases hsh
  rw [hf.untouched (b, v) hb hd] at hk
  have hkeys := SameKeys.of_eq hf.cache
  rw [hkeys.cacheFrame]
  exact h.shared b v e r hk hr hsh

/-- A write goes to the frame of the page if the page is writable; otherwise the page is
not a shared one. -/
theorem written {update old e g words} (ha : a ∈ V.live) (hv : pageOf virt < userPages)
    (heq : Vm.userWrite s a virt update = (true, s')) (hleaf : leaf s V (a, pageOf virt) = some old)
    (hw : Written (a, pageOf virt) (pteFrame old) g e words s A L V s' A' L') :
    SharedInv s' A' L' V := by
  have hkeep : ∀ b v e r, leaf s V (b, v) = some e → regionAt s' b (v * pageSize) = some r →
      r.sharedWritable = true →
      cacheFrame s' r.file (r.pageFileOffset (v * pageSize)) = some (pteFrame e) ∧
        has e pteWritable = true := by
    intro b v e r hk hr hsh
    have hkeys := SameKeys.of_eq hw.cache
    rw [regionAt, hw.spaces] at hr
    rw [hkeys.cacheFrame]
    exact h.shared b v e r hk hr hsh
  refine ⟨h.toForkInv.written hleaf hw, fun b hb => ?_, fun b v e r hk hr hsh => ?_⟩
  · rw [hw.spaces]
    exact h.areas b hb
  cases hwritable : has old pteWritable with
  | true =>
    obtain ⟨hdirect, hwr⟩ := h.toMapped.userWrite_writable ha hv hleaf hwritable update
    cases heq.symm.trans hdirect
    rw [hwr.leaf, ← hleaf, update_eq_self] at hk
    exact hkeep b v e r hk hr hsh
  | false =>
    rw [hw.leaf] at hk
    by_cases hkey : (b, v) = (a, pageOf virt)
    · obtain ⟨rfl, rfl⟩ := Prod.mk.inj hkey
      have hold := (hkeep b _ old r hleaf hr hsh).2
      rw [hwritable] at hold
      cases hold
    · rw [update_of_ne hkey] at hk
      exact hkeep b v e r hk hr hsh

end

end SharedInv

/-! ### Every history -/

/-- The word of the page cache behind an address of an area. -/
def cacheRead (s : VmState) (r : Region) (virt : Nat) : Option Word :=
  (cachedPage s r.file (r.pageFileOffset virt)).map fun page => page (virt % pageSize / 8)

/-- Address space `a` has the page of `virt` in the shared writable area `r`. -/
def MapsShared (s : VmState) (r : Region) (a virt : Nat) : Prop :=
  regionAt s a virt = some r ∧ r.sharedWritable = true ∧ presentPte s a virt ≠ none

/-- Members read the page cache, and what one of them writes is what all of them read
and what the page cache holds. -/
structure Coherent (h : VmHistory) : Prop where
  read : ∀ a ∈ h.live, ∀ virt < 2 ^ 47, ∀ r, MapsShared h.state r a virt →
    userRead h.state a virt = cacheRead h.state r virt
  write : ∀ a ∈ h.live, ∀ virt < 2 ^ 47, ∀ r, MapsShared h.state r a virt → ∀ update,
    ∃ old h', userRead h.state a virt = some old ∧
      h.perform (.write a virt update) = some (true, h') ∧
      cacheRead h'.state r virt = some (update old) ∧
      ∀ b ∈ h.live, MapsShared h.state r b virt → userRead h'.state b virt = some (update old)

/-- What accounts for the state of a history with shared mappings. -/
def VmHistory.SharedTracks (h : VmHistory) : Prop :=
  ∃ A L V, SharedInv h.state A L V ∧ V.live = h.live ∧ L.others = h.others

namespace VmHistory.SharedTracks

variable {h h' : VmHistory} {ok : Bool}

/-- One call that meets the condition. -/
theorem step (ht : h.SharedTracks) {call} (hsafe : h.SharedSafe call)
    (hstep : h.step call = some h') : h'.SharedTracks := by
  obtain ⟨A, L, V, hinv, hlive, hoth⟩ := ht
  have hkeeps : call.Keeps := by
    cases call <;> first | exact hsafe.1 | exact hsafe | trivial
  obtain ⟨s', A', L', V', hmove, hstate, hlive', hoth'⟩ :=
    forkMove hinv.toForkInv hlive hoth hkeeps hstep
  rw [SharedTracks, hstate]
  refine ⟨A', L', V', ?_, hlive', hoth'⟩
  cases hmove with
  | same => exact hinv
  | create ha hc => exact hinv.created ha hsafe hc
  | setVmas ha => exact hinv.setVmas ha hsafe.1 hsafe.2
  | fault ha hf => exact hinv.faulted ha hsafe.2 hf
  | clone hsrc hf => exact hinv.forked hsrc hsafe.1 hsafe.2 hf
  | write ha hv heq hleaf hw => exact hinv.written ha hv heq hleaf hw
  | recache _ hkeys => exact hinv.recache hkeys
  | others _ hmach hacc => exact hinv.others_move hmach hacc

theorem start (B : VmBoot) : B.start.SharedTracks := by
  obtain ⟨A, L, V, hinv, hlive, hoth⟩ := PrivateTracks.start B
  have hemp : V.live = ∅ := hlive
  refine ⟨A, L, V, ⟨hinv.toForkInv, fun a ha => ?_, fun a v e r hk => ?_⟩, hlive, hoth⟩
  · rw [hemp] at ha
    exact absurd ha (notMem_empty a)
  · have hmem := (hinv.leaf_key hk).1
    rw [hemp] at hmem
    exact absurd hmem (notMem_empty _)

/-- The entry of a shared page. -/
theorem shared_entry {A L V} (hinv : SharedInv h.state A L V) (hlive : V.live = h.live)
    (ha : a ∈ h.live) (hv : virt < 2 ^ 47) (hm : MapsShared h.state r a virt) :
    ∃ e, presentPte h.state a virt = some e ∧ leaf h.state V (a, pageOf virt) = some e ∧
      has e pteWritable = true ∧
      cacheFrame h.state r.file (r.pageFileOffset virt) = some (pteFrame e) := by
  obtain ⟨hreg, hsh, hpres⟩ := hm
  rw [← hlive] at ha
  obtain ⟨e, he⟩ := ne_none_iff_exists'.mp hpres
  have hleaf := he
  rw [Mapped.presentPte_eq hinv.toPaging ha (pageOf_user hv)] at hleaf
  rw [← (hinv.areas a ha).regionAt_page] at hreg
  obtain ⟨hframe, hw⟩ := hinv.shared a (pageOf virt) e r hleaf hreg hsh
  rw [Region.pageFileOffset_page] at hframe
  exact ⟨e, he, hleaf, hw, hframe⟩

theorem cacheRead_of_frame {f} (hfile : r.file ≠ 0)
    (hf : cacheFrame s r.file (r.pageFileOffset virt) = some f) :
    cacheRead s r virt = some (s.mem f (virt % pageSize / 8)) := by
  have hlookup : pageCacheLookup s r.file (r.pageFileOffset virt) = some f := by
    rw [pageCacheLookup, if_neg hfile]
    exact hf
  rw [cacheRead, cachedPage, hlookup]
  rfl

theorem coherent (ht : h.SharedTracks) : Coherent h := by
  obtain ⟨A, L, V, hinv, hlive, -⟩ := ht
  have hfile : ∀ a ∈ h.live, ∀ virt r, MapsShared h.state r a virt → r.file ≠ 0 := by
    intro a ha virt r hm
    exact Region.file_ne_zero ((hinv.areas a (hlive ▸ ha)).fileBacked hm.1 hm.2.1)
  constructor
  · intro a ha virt hv r hm
    obtain ⟨e, he, -, -, hframe⟩ := shared_entry hinv hlive ha hv hm
    rw [userRead, he, cacheRead_of_frame (hfile a ha virt r hm) hframe]
    rfl
  intro a ha virt hv r hm update
  obtain ⟨e, he, hleaf, hw, hframe⟩ := shared_entry hinv hlive ha hv hm
  obtain ⟨hwrite, hwr⟩ :=
    hinv.toMapped.userWrite_writable (hlive ▸ ha) (pageOf_user hv) hleaf hw update
  have hword : (storeWord h.state e virt update).mem (pteFrame e) (virt % pageSize / 8) =
      update (h.state.mem (pteFrame e) (virt % pageSize / 8)) := by
    rw [hwr.page, Mapped.stored, update_self]
  refine ⟨h.state.mem (pteFrame e) (virt % pageSize / 8),
    h.withState (storeWord h.state e virt update), ?_, ?_, ?_, fun b hb hmb => ?_⟩
  · rw [userRead, he]
    rfl
  · simp [perform, if_pos ha, hwrite]
  · rw [← hword]
    exact cacheRead_of_frame (hfile a ha virt r hm) hframe
  -- The other member has the same frame, and its entry did not change.
  obtain ⟨e', -, hleaf', -, hframe'⟩ := shared_entry hinv hlive hb hv hmb
  have hsame : pteFrame e' = pteFrame e := some.inj (hframe'.symm.trans hframe)
  have hleaves : leaf (storeWord h.state e virt update) V = leaf h.state V := by
    rw [hwr.leaf, ← hleaf, update_eq_self]
  have hpte : presentPte (storeWord h.state e virt update) b virt = some e' := by
    rw [Mapped.presentPte_eq hwr.mapped.toPaging (hlive ▸ hb) (pageOf_user hv), hleaves, hleaf']
  show userRead (storeWord h.state e virt update) b virt = _
  rw [userRead, hpte, map_some, hsame, hword]

end VmHistory.SharedTracks

/-- **Coherence of shared mappings.** As long as processes clone before they touch their
shared writable pages, all members of the tree read what any of them wrote, and so does
the page cache. -/
theorem shared_mappings_coherent (B : VmBoot) {calls : List VmCall} {h : VmHistory}
    (hrun : GuardedRun VmHistory.step VmHistory.SharedSafe B.start calls h) : Coherent h := by
  have htracks : h.SharedTracks := hrun.inv VmHistory.SharedTracks
    (fun _ _ _ ht => ht.step) (.start B)
  exact htracks.coherent

/-- A check that implies the condition. -/
def VmHistory.sharedCheck (h : VmHistory) : VmCall → Bool
  | .create _ vmas => vmas.all fun areas => areas.all fun r =>
    decide (pageSize ∣ r.start) && decide (pageSize ∣ r.stop) && (!r.sharedWritable || r.fileBacked)
  | .fault _ addr _ allocated => decide (addr < 2 ^ 47) && allocated
  | .clone src _ newVmas _ => decide (newVmas = some []) &&
    (List.range 256).all fun i => !has (h.state.mem (h.state.root src) i) ptePresent
  | .write _ virt _ => decide (virt < 2 ^ 47)
  | _ => false

theorem VmHistory.sharedSafe_of_check (h : VmHistory) (call : VmCall)
    (hcheck : h.sharedCheck call = true) : h.SharedSafe call := by
  cases call with
  | create handle vmas =>
    intro areas hareas r hr
    simp only [sharedCheck, all_eq_true, List.all_eq_true, and_eq_true,
      decide_eq_true_eq, or_eq_true, not_eq_true'] at hcheck
    obtain ⟨⟨hstart, hstop⟩, hfile⟩ := hcheck areas hareas r hr
    refine ⟨hstart, hstop, fun hsh => ?_⟩
    rcases hfile with hfile | hfile
    · rw [hsh] at hfile
      cases hfile
    · exact hfile
  | fault as addr data allocated =>
    simp only [sharedCheck, and_eq_true, decide_eq_true_eq] at hcheck
    exact ⟨hcheck.1, fun _ _ _ => hcheck.2⟩
  | clone src handle newVmas cloned =>
    simp only [sharedCheck, and_eq_true, decide_eq_true_eq, List.all_eq_true, List.mem_range,
      not_eq_true'] at hcheck
    refine ⟨.inr hcheck.1, fun v hv hpres => ?_⟩
    -- the PML4 is empty below the kernel half
    have hindex : tableIndex 3 (v * pageSize) < 256 := by
      rw [userPages] at hv
      rw [tableIndex_eq, pageOf_mul]
      omega
    have hent := hcheck.2 _ hindex
    simp [presentPte, pteAt, asGetPte, walkDown, nextTable, hent] at hpres
  | write =>
    simp only [sharedCheck, decide_eq_true_eq] at hcheck
    exact hcheck
  | setVmas | freePage | destroy | cacheRef | cachePut | cacheMarkDirty | cacheSync
  | cacheInvalidate | allocOther | freeOther => cases hcheck

/-- A page of a shared writable file mapping. -/
def sharedPage : Region := filePage 0x7ffffffff000 { read := true, write := true, shared := true }

/-- A process forks, then both touch the shared page, and one of them writes to it. -/
def forkThenShare : List VmCall :=
  [.create (some 1) (some [sharedPage]), .clone 1 (some 2) (some []) true,
    .fault 1 0x7ffffffff000 (some fun _ => 3) true, .fault 2 0x7ffffffff000 none true,
    .write 1 0x7ffffffff000 fun _ => 4]

theorem shared_mappings_coherent_forkThenShare :
    ∃ h, GuardedRun VmHistory.step VmHistory.SharedSafe smallVmBoot.start forkThenShare h ∧
      userRead h.state 2 0x7ffffffff000 = some 4 ∧ Coherent h := by
  obtain ⟨h, hrun, hread⟩ : ∃ h, run (fun h call =>
      if h.sharedCheck call then VmHistory.step h call else none) smallVmBoot.start forkThenShare =
        some h ∧ userRead h.state 2 0x7ffffffff000 = some 4 := by decide +kernel
  have hguarded := GuardedRun.of_checked VmHistory.sharedSafe_of_check hrun
  exact ⟨h, hguarded, hread, shared_mappings_coherent smallVmBoot hguarded⟩

/-- A process touches its shared page, forks and writes. -/
def shareThenFork : List VmCall :=
  [.create (some 1) (some [sharedPage]), .fault 1 0x7ffffffff000 (some fun _ => 3) true,
    .clone 1 (some 2) (some []) true, .write 1 0x7ffffffff000 fun _ => 4]

/-- `as_clone` made the page a COW page in both, and the write went to a copy: neither the
child nor the page cache sees it. -/
theorem shareThenFork_not_coherent :
    ∃ h, run VmHistory.step smallVmBoot.start shareThenFork = some h ∧
      userRead h.state 1 0x7ffffffff000 = some 4 ∧ userRead h.state 2 0x7ffffffff000 = some 3 ∧
      cacheRead h.state sharedPage 0x7ffffffff000 = some 3 ∧ ¬ Coherent h := by
  obtain ⟨h, hrun, hone, htwo, hcache, hlive, hregion⟩ : ∃ h,
      run VmHistory.step smallVmBoot.start shareThenFork = some h ∧
        userRead h.state 1 0x7ffffffff000 = some 4 ∧ userRead h.state 2 0x7ffffffff000 = some 3 ∧
        cacheRead h.state sharedPage 0x7ffffffff000 = some 3 ∧ 1 ∈ h.live ∧
        regionAt h.state 1 0x7ffffffff000 = some sharedPage := by decide +kernel
  refine ⟨h, hrun, hone, htwo, hcache, fun hcoherent => ?_⟩
  have hpresent : presentPte h.state 1 0x7ffffffff000 ≠ none := by
    intro hnone
    rw [userRead, hnone] at hone
    cases hone
  have hread := hcoherent.read 1 hlive 0x7ffffffff000 (by decide) sharedPage
    ⟨hregion, rfl, hpresent⟩
  rw [hone, hcache] at hread
  exact absurd hread (by decide)

end Kurios.Vm
