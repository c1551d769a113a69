import Kurios.Base.Count
import Kurios.Vm.Fault
import Kurios.Vm.Mapping

/-!
Frames behind pages.

`Mapped` adds to the page tables what the frames they map need: every mapped frame is
counted by the allocator. How often a frame is mapped is `mapCount`. The first half of
the module are the moves that operations are made of (a frame is allocated, a leaf is
written, a reference is dropped), the second half the operations: the page fault
handlers, user writes and `as_free_page`.

The frames are asked to lie in the kernel window, where the kernel can reach them from
every address space. That also bounds how often a frame can be mapped.
-/

namespace Kurios.Vm

open Base Pmm Function Option Finset

variable {m : MemInfo} {g q t v virt f : Nat} {entry old : Word} {k : Nat × Nat} {refs : Nat → Nat}

/-- The pages of the live address spaces. -/
def View.keys (V : View) : Finset (Nat × Nat) := V.live ×ˢ Finset.range userPages

/-- The frame of a page. -/
def frameAt (s : VmState) (V : View) (k : Nat × Nat) : Option Nat := (leaf s V k).map pteFrame

section

variable {s s' : VmState} {V V' : View} {k : Nat × Nat} {e : Option Word}

theorem frameAt_of_leaf (h : leaf s V k = e) : frameAt s V k = e.map pteFrame :=
  congrArg (Option.map pteFrame) h

theorem frameAt_congr (h : leaf s' V' = leaf s V) : frameAt s' V' = frameAt s V :=
  funext fun j => frameAt_of_leaf (congrFun h j)

theorem frameAt_update (h : leaf s' V' = update (leaf s V) k e) :
    frameAt s' V' = update (frameAt s V) k (e.map pteFrame) :=
  (congrArg (Option.map pteFrame ∘ ·) h).trans (comp_update _ _ _ _)

end

/-- How many pages a frame is mapped at. -/
def mapCount (s : VmState) (V : View) (f : Nat) : Nat := hits V.keys (frameAt s V) f

/-- The frames of `[KERNEL_PHYS_BASE, KERNEL_PHYS_BASE + 128 MiB)`. -/
def InWindow (f : Nat) : Prop := 0x200 ≤ f ∧ f < 0x8200

/-- Page tables whose pages are counted frames of the kernel window. -/
structure Mapped (s : VmState) (A : Arena) (L : Ledger) (V : View) : Prop extends
    Paging s A L V where
  total : 2 ^ maxOrder ∣ s.pmm.totalPages
  window : ∀ f ∈ A.frames, InWindow f
  counted : ∀ k f, frameAt s V k = some f → 0 < L.refs f
  single : ∀ a ∈ V.live, (s.spaces a).refCount = 1

theorem update_one_pos {q} (h : q = f ∨ 0 < refs q) : 0 < update refs f 1 q := by
  by_cases hq : q = f
  · rw [hq, update_self]
    exact one_pos
  · rw [update_of_ne hq]
    exact h.resolve_left hq

namespace Mapped

variable {s s' : VmState} {A A' : Arena} {L L' : Ledger} {V V' : View} {a f : Nat}

theorem key_mem (h : Mapped s A L V) (hk : frameAt s V k = some f) : k ∈ V.keys := by
  obtain ⟨entry, hleaf, -⟩ := map_eq_some_iff.mp hk
  obtain ⟨hlive, hpage⟩ := h.leaf_key hleaf
  exact mem_product.mpr ⟨hlive, mem_range.mpr hpage⟩

theorem mapCount_pos_iff (h : Mapped s A L V) :
    0 < mapCount s V f ↔ ∃ k, frameAt s V k = some f := by
  rw [mapCount, hits_pos_iff]
  constructor
  · rintro ⟨k, -, hk⟩
    exact ⟨k, hk⟩
  · rintro ⟨k, hk⟩
    exact ⟨k, h.key_mem hk, hk⟩

/-- There are no more pages than entries in tables. -/
theorem mapCount_le (h : Mapped s A L V) (f : Nat) : mapCount s V f ≤ 2 ^ 24 := by
  have htables : L.tables ⊆ Finset.Ico 0x200 0x8200 := by
    intro t ht
    exact mem_Ico.mpr (h.window t (h.accounts.frame_range (h.accounts.table_live ht)).1)
  have hcard : (L.tables ×ˢ Finset.range 512).card ≤ 2 ^ 24 := by
    rw [card_product, card_range]
    have := card_le_card htables
    rw [Nat.card_Ico] at this
    omega
  have hnode : ∀ k, frameAt s V k = some f → ∃ t, V.tables.node k.1 0 (k.2 / 512) = some t := by
    intro k hk
    obtain ⟨entry, hleaf, -⟩ := map_eq_some_iff.mp hk
    obtain ⟨t, ht, -⟩ := bind_eq_some_iff.mp hleaf
    exact ⟨t, ht⟩
  refine (hits_le_card (fun k => ((V.tables.node k.1 0 (k.2 / 512)).getD 0, k.2 % 512))
    (fun k _ hk => ?_) fun j _ k _ hj hk heq => ?_).trans hcard
  · obtain ⟨t, ht⟩ := hnode k hk
    rw [ht]
    exact mem_product.mpr ⟨h.node_mem ht, mem_range.mpr (Nat.mod_lt _ (by decide))⟩
  obtain ⟨t, ht⟩ := hnode j hj
  obtain ⟨u, hu⟩ := hnode k hk
  simp only [ht, hu, getD_some, Prod.mk.injEq] at heq
  obtain ⟨rfl, hmod⟩ := heq
  obtain ⟨hfst, -, hdiv⟩ := h.shape.inj _ _ _ _ _ _ _ hu ht
  refine Prod.ext hfst ?_
  omega

/-! ### Moves -/

section

variable (h : Mapped s A L V)
include h

/-- A frame that is not a table is written. -/
theorem write (hpmm : s'.pmm = s.pmm) (hspaces : s'.spaces = s.spaces)
    (hmem : ∀ t ∈ L.tables, s'.mem t = s.mem t) : Mapped s' A L V ∧ leaf s' V = leaf s V := by
  obtain ⟨hpaging, hleaf⟩ := h.setData hpmm hspaces hmem
  refine ⟨⟨hpaging, hpmm ▸ h.total, h.window, fun k q hk => h.counted k q ?_,
    fun b hb => ?_⟩, hleaf⟩
  · rwa [frameAt, hleaf] at hk
  · rw [hspaces]
    exact h.single b hb

/-- The allocator moves, and the ledger with it. -/
theorem move {others} (hsame : SameMachine s.pmm A m A')
    (hacc : Accounts m A' ⟨others, L.tables, refs⟩)
    (hcounted : ∀ k q, frameAt s V k = some q → 0 < refs q) :
    Mapped { s with pmm := m } A' ⟨others, L.tables, refs⟩ V where
  accounts := hacc
  narrow q hq := h.narrow q (hsame.frames ▸ hq)
  __ := h
  total := by
    show 2 ^ maxOrder ∣ m.totalPages
    rw [hsame.totalPages]
    exact h.total
  window q hq := h.window q (hsame.frames ▸ hq)
  counted := hcounted

/-- New tables map nothing. -/
theorem grown (hg : Grown a s A L V s' A' L' V') : Mapped s' A' L' V' where
  toPaging := hg.paging
  total := hg.machine.totalPages.symm ▸ h.total
  window q hq := h.window q (hg.machine.frames ▸ hq)
  counted k q hk := by
    rw [hg.refs]
    refine h.counted k q ?_
    rwa [frameAt, hg.leaf] at hk
  single b hb := by
    rw [hg.spaces]
    exact h.single b (hg.live ▸ hb)

/-- A leaf is written. -/
theorem setLeaf (entry : Word) (ht : V.tables.node a 0 (v / 512) = some t)
    (hent : has entry ptePresent = true → 0 < L.refs (pteFrame entry)) :
    Mapped (s.setEntry t (v % 512) entry) A L V where
  toPaging := h.toPaging.setLeaf ht entry
  __ := h
  counted k q hk := by
    rw [frameAt, h.leaf_setLeaf ht] at hk
    by_cases hkey : k = (a, v)
    · subst hkey
      rw [update_self] at hk
      split at hk
      · next hpres =>
        cases hk
        exact hent hpres
      · cases hk
    · rw [update_of_ne hkey] at hk
      exact h.counted k q hk

/-- A new address space maps nothing. -/
theorem created {vmas} (hc : Created a vmas s A L V s' A' L' V') : Mapped s' A' L' V' where
  toPaging := hc.paging
  total := hc.machine.totalPages.symm ▸ h.total
  window q hq := h.window q (hc.machine.frames ▸ hq)
  counted k q hk := by
    rw [hc.refs]
    refine h.counted k q ?_
    rwa [frameAt, hc.leaf] at hk
  single b hb := by
    by_cases hba : b = a
    · rw [hba]
      exact hc.space.1
    · rw [hc.spaces b hba]
      rw [hc.live] at hb
      exact h.single b (mem_of_mem_insert_of_ne hb hba)

/-- The list of areas of an address space is replaced. -/
theorem setVmas (a : Nat) (vmas : Option (List Region)) :
    Mapped (s.modifySpace a fun as => { as with vmas := vmas }) A L V := by
  set s' := s.modifySpace a fun as => { as with vmas := vmas }
  have hroot : ∀ b, s'.root b = s.root b := fun b =>
    congrArg pteFrame (s.modifySpace_congr AddressSpace.cr3 (by intro; rfl) a b)
  have hroots : roots s' V.live = roots s V.live := by
    funext b
    rw [roots, roots, hroot]
  exact ⟨⟨h.accounts, h.narrow, hroots ▸ h.shape, h.owned, h.huge⟩, h.total, h.window, h.counted,
    fun b hb => (s.modifySpace_congr AddressSpace.refCount (by intro; rfl) a b).trans
      (h.single b hb)⟩

end

/-! ### Reading -/

theorem presentPte_eq (h : Paging s A L V) (ha : a ∈ V.live) (hv : pageOf virt < userPages) :
    presentPte s a virt = leaf s V (a, pageOf virt) := by
  rw [presentPte, pteAt, h.asGetPte_none hv ha, leaf]
  cases V.tables.node a 0 (pageOf virt / 512) with
  | none => rfl
  | some t => simp [presentAt, Option.filter]

end Mapped

section

variable (k : Nat × Nat) (entry : Option Word) (f : Nat) (flags : Word) (words : Nat → Word)
  (s : VmState) (A : Arena) (L : Ledger) (V : View) (s' : VmState) (A' : Arena) (L' : Ledger)
  (V' : View)

/-- The address spaces and the cache are as before, and so is the memory of the counted
frames. -/
structure Kept : Prop where
  mapped : Mapped s' A' L' V'
  machine : SameMachine s.pmm A s'.pmm A'
  others : L'.others = L.others
  live : V'.live = V.live
  spaces : s'.spaces = s.spaces
  cache : s'.cache = s.cache
  data : ∀ f, 0 < L.refs f → s'.mem f = s.mem f

/-- Nothing happened that a page can see. -/
structure Unchanged : Prop extends Kept s A L V s' A' L' V' where
  leaf : leaf s' V' = leaf s V
  refs : L'.refs = L.refs

/-- Page `k` was mapped to the frame of `entry`, or nothing that a page can see
happened. -/
structure Placed : Prop extends Kept s A L V s' A' L' V' where
  leaf : leaf s' V' = entry.elim (leaf s V) fun e => update (leaf s V) k (some e)
  refs : L'.refs = L.refs

/-- Page `k` got a frame of its own, filled with `words`. -/
structure FreshPage : Prop extends Kept s A L V s' A' L' V' where
  unused : L.refs f = 0
  window : InWindow f
  leaf : leaf s' V' = update (leaf s V) k (some (mapEntry f flags))
  refs : L'.refs = update L.refs f 1
  page : s'.mem f = words

end

theorem Kept.trans {s s1 s' A A1 A' L L1 L' V V1 V'}
    (h : Kept s A L V s1 A1 L1 V1) (h' : Kept s1 A1 L1 V1 s' A' L' V')
    (hcounted : ∀ f, 0 < L.refs f → 0 < L1.refs f) : Kept s A L V s' A' L' V' :=
  ⟨h'.mapped, h.machine.trans h'.machine, h'.others.trans h.others, h'.live.trans h.live,
    h'.spaces.trans h.spaces, h'.cache.trans h.cache,
    fun f hf => (h'.data f (hcounted f hf)).trans (h.data f hf)⟩

namespace Mapped

variable {s s' : VmState} {A A' : Arena} {L L' : Ledger} {V V' : View} {a f : Nat}

theorem unchanged (h : Mapped s A L V) : Unchanged s A L V s A L V :=
  ⟨⟨h, .refl _ _, rfl, rfl, rfl, rfl, fun _ _ => rfl⟩, rfl, rfl⟩

theorem unchanged_grown (h : Mapped s A L V) (hg : Grown a s A L V s' A' L' V') :
    Unchanged s A L V s' A' L' V' :=
  ⟨⟨h.grown hg, hg.machine, hg.others, hg.live, hg.spaces, hg.cache, hg.data⟩, funext hg.leaf,
    hg.refs⟩

/-- The count of a frame changes; it stays positive if a page maps the frame. -/
theorem recount (h : Mapped s A L V) {n} (hsame : SameMachine s.pmm A m A')
    (hacc : Accounts m A' (L.setRefs f n)) (hn : ∀ k, frameAt s V k = some f → 0 < n) :
    Kept s A L V { s with pmm := m } A' (L.setRefs f n) V := by
  refine ⟨h.move hsame hacc fun k q hk => ?_, hsame, rfl, rfl, rfl, rfl, fun _ _ => rfl⟩
  rcases eq_or_ne q f with rfl | hq
  · rw [update_self]
    exact hn k hk
  · rw [update_of_ne hq]
    exact h.counted k q hk

/-- `alloc_page` for a page. -/
theorem allocFrame (h : Mapped s A L V) :
    Vm.allocFrame s = (none, s) ∨
      ∃ f m A', Vm.allocFrame s = (some f, { s with pmm := m }) ∧ L.Fresh f ∧ InWindow f ∧
        Kept s A L V { s with pmm := m } A' (L.setRefs f 1) V := by
  rcases allocFrame_spec h.accounts with heq | ⟨f, m, A', heq, hfresh, hin, hsame, -, hacc⟩
  · exact .inl heq
  exact .inr ⟨f, m, A', heq, hfresh, h.window f hin, h.recount hsame hacc fun _ _ => one_pos⟩

theorem inWindow_lt (h : InWindow f) : f < 2 ^ 40 := by
  have := h.2
  omega

section

variable (h : Mapped s A L V) (hf : 0 < L.refs f)
include h hf

/-- `free_page` of a counted frame that no page maps. -/
theorem freeFrame (hfree : ∀ k, frameAt s V k ≠ some f) :
    ∃ A', Kept s A L V (Vm.freeFrame s f) A' (L.setRefs f 0) V := by
  obtain ⟨A', hsame, hacc⟩ := h.accounts.freeCounted_of hf h.accounts.buddy h.total fun _ _ => rfl
  exact ⟨A', h.recount hsame hacc fun k hk => absurd hk (hfree k)⟩

/-- `page_put_phys` of a frame that only stays mapped if it stays counted. -/
theorem putFrame (hrest : ∀ k, frameAt s V k = some f → 1 < L.refs f) :
    ∃ A', Kept s A L V (Vm.putFrame s f) A' (L.setRefs f (L.refs f - 1)) V := by
  obtain ⟨A', hsame, hacc⟩ := h.accounts.put h.total hf
  exact ⟨A', h.recount hsame hacc fun k hk => Nat.sub_pos_of_lt (hrest k hk)⟩

/-- `page_get_phys` of a counted frame. -/
theorem getFrame (hlt : L.refs f < 2 ^ 32 - 1) :
    Kept s A L V (Vm.getFrame s f) A (L.setRefs f (L.refs f + 1)) V := by
  obtain ⟨hsame, hacc⟩ := h.accounts.get hf hlt
  exact h.recount hsame hacc fun _ _ => Nat.succ_pos _

/-! ### Demand faults -/

/-- Memory of a counted frame is filled. -/
theorem fillFrame (words : Nat → Word) :
    Mapped (s.fillFrame f words) A L V ∧ leaf (s.fillFrame f words) V = leaf s V := by
  refine h.write rfl rfl fun t ht => s.fillFrame_mem_of_ne ?_ words
  rintro rfl
  exact h.accounts.counted_not_table hf ht

end

theorem setRefs_self (L : Ledger) (f n : Nat) : (L.setRefs f n).refs f = n := by
  simp [Ledger.setRefs]

theorem setRefs_of_ne (L : Ledger) (h : q ≠ f) (n : Nat) : (L.setRefs f n).refs q = L.refs q := by
  simp [Ledger.setRefs, h]

theorem setRefs_pos (L : Ledger) {n} (hn : 0 < n) (hq : 0 < L.refs q) :
    0 < (L.setRefs f n).refs q := by
  rcases eq_or_ne q f with rfl | hne
  · rwa [setRefs_self]
  · rwa [setRefs_of_ne L hne]

/-- The frame that was allocated for a page is filled. -/
theorem fillFresh (h : Kept s A L V { s with pmm := m } A' (L.setRefs f 1) V)
    (hfresh : L.refs f = 0) (words : Nat → Word) :
    ∃ s1, VmState.fillFrame { s with pmm := m } f words = s1 ∧
      Kept s A L V s1 A' (L.setRefs f 1) V ∧ leaf s1 V = leaf s V ∧ s1.mem f = words ∧
      SameUpper A.frames V.live s s1 := by
  have hone : 0 < (L.setRefs f 1).refs f := update_one_pos (.inl rfl)
  obtain ⟨hmap, hleaf⟩ := h.mapped.fillFrame hone words
  have hacc := h.mapped.accounts
  have hupper := h.mapped.toPaging.fill_upper (hacc.frame_range (hacc.counted_live hone)).1
    (hacc.counted_not_table hone) words
  rw [h.machine.frames] at hupper
  have hpmm : SameUpper A.frames V.live s { s with pmm := m } := .of_mem rfl rfl rfl
  refine ⟨_, rfl, ⟨hmap, h.machine, rfl, rfl, rfl, rfl, fun q hq => ?_⟩, hleaf, ?_,
    hpmm.trans hupper⟩
  · have hne : q ≠ f := fun he => hq.ne' (he ▸ hfresh)
    exact VmState.fillFrame_mem_of_ne _ hne words
  · funext i
    rw [VmState.fillFrame_mem, if_pos rfl]

section

variable (h : Mapped s A L V)
include h

/-- A leaf is written, and no page. -/
theorem setLeaf_kept (entry : Word) (ht : V.tables.node a 0 (v / 512) = some t)
    (hent : has entry ptePresent = true → 0 < L.refs (pteFrame entry)) :
    Kept s A L V (s.setEntry t (v % 512) entry) A L V := by
  refine ⟨h.setLeaf entry ht hent, .refl _ _, rfl, rfl, rfl, rfl, fun q hq => ?_⟩
  have hne : q ≠ t := fun he => h.accounts.counted_not_table hq (he ▸ h.node_mem ht)
  exact s.setEntry_mem_of_ne hne _ _

section

variable (ha : a ∈ V.live) (hv : pageOf virt < userPages)
include ha hv

/-- A counted frame is mapped. -/
theorem placed (hf : 0 < L.refs f) (flags : Word) :
    ∃ ok s' A' L' V', asMapPage s a virt f flags = (ok, s') ∧ SameUpper A.frames V.live s s' ∧
      (∀ b l n, b ≠ a → V'.tables.node b l n = V.tables.node b l n) ∧
      Placed (a, pageOf virt) (if ok then some (mapEntry f flags) else none) s A L V
        s' A' L' V' := by
  obtain ⟨s1, A1, L1, V1, hgr, hupper, hmap | ⟨t, ht, hmap⟩⟩ :=
    h.toPaging.asMapPage_spec ha hv f flags
  all_goals
    have hu := h.unchanged_grown hgr
    rw [hmap] at hupper
  · exact ⟨false, s1, A1, L1, V1, hmap, hupper, hgr.node, hu.toKept, hu.leaf, hu.refs⟩
  have hset := hu.mapped.setLeaf_kept (mapEntry f flags) ht fun _ => by
    rw [pteFrame_mapEntry flags (inWindow_lt
      (h.window f (h.accounts.frame_range (h.accounts.counted_live hf)).1)), hu.refs]
    exact hf
  refine ⟨true, _, A1, L1, V1, hmap, hupper, hgr.node,
    hu.toKept.trans hset fun q hq => hu.refs ▸ hq, ?_, hu.refs⟩
  rw [hgr.paging.leaf_setLeaf ht, if_pos (has_present_mapEntry f flags), hu.leaf]
  rfl

/-- A fresh frame is filled and mapped at a page that has none; if that fails it is freed
again. -/
theorem mapFresh (hfresh : L.refs f = 0) (hwindow : InWindow f)
    (halloc : Kept s A L V { s with pmm := m } A' (L.setRefs f 1) V) (words : Nat → Word)
    (flags : Word) :
    ∃ s1 A1 L1 V1, SameUpper A.frames V.live s s1 ∧
      ((asMapPage (VmState.fillFrame { s with pmm := m } f words) a virt f flags = (false, s1) ∧
        ∃ A2 L2, Unchanged s A L V (Vm.freeFrame s1 f) A2 L2 V1) ∨
      (asMapPage (VmState.fillFrame { s with pmm := m } f words) a virt f flags = (true, s1) ∧
        FreshPage (a, pageOf virt) f flags words s A L V s1 A1 L1 V1)) := by
  have hone : 0 < (L.setRefs f 1).refs f := update_one_pos (.inl rfl)
  have hpos := fun q => setRefs_pos L (f := f) (q := q) one_pos
  obtain ⟨s0, hs0, hfill, hleaf, hpage, hupper⟩ := fillFresh halloc hfresh words
  obtain ⟨ok, s1, A1, L1, V1, hmap, hupper1, -, hpl⟩ := hfill.mapped.placed ha hv hone flags
  have hkept := hfill.trans hpl.toKept hpos
  rw [hfill.machine.frames] at hupper1
  refine ⟨s1, A1, L1, V1, hupper.trans hupper1, ?_⟩
  rw [hs0, hmap]
  cases ok with
  | false =>
    have hleaf1 : leaf s1 V1 = leaf s V := hpl.leaf.trans hleaf
    obtain ⟨A2, hfree⟩ := hpl.mapped.freeFrame (hpl.refs ▸ hone) fun k hk =>
      (h.counted k f (frameAt_congr hleaf1 ▸ hk)).ne' hfresh
    refine .inl ⟨rfl, A2, _, hkept.trans hfree (hpl.refs ▸ hpos), hleaf1, ?_⟩
    funext q
    by_cases hq : q = f
    · rw [hq, setRefs_self, hfresh]
    · rw [setRefs_of_ne L1 hq, hpl.refs, setRefs_of_ne L hq]
  | true =>
    refine .inr ⟨rfl, hkept, hfresh, hwindow, hpl.leaf.trans ?_, hpl.refs,
      (hpl.data f hone).trans hpage⟩
    rw [hleaf]
    rfl

/-- A demand fault in an anonymous area. -/
theorem faultAnonymous (r : Region) :
    ∃ s' A' L' V', SameUpper A.frames V.live s s' ∧
      ((Vm.faultAnonymous s a virt r = (false, s') ∧ Unchanged s A L V s' A' L' V') ∨
      (Vm.faultAnonymous s a virt r = (true, s') ∧
        ∃ f, FreshPage (a, pageOf virt) f r.allFlags (fun _ => 0) s A L V s' A' L' V')) := by
  obtain heq | ⟨f, m, A1, heq, hfresh, hwindow, halloc⟩ := h.allocFrame
  · refine ⟨s, A, L, V, .refl s, .inl ⟨?_, h.unchanged⟩⟩
    rw [Vm.faultAnonymous, heq]
  obtain ⟨s1, A2, L2, V2, hupper, ⟨hmap, A3, L3, hback⟩ | ⟨hmap, hpage⟩⟩ :=
    h.mapFresh ha hv hfresh.2.1 hwindow halloc (fun _ => 0) r.allFlags
  · refine ⟨Vm.freeFrame s1 f, A3, L3, V2, hupper.trans (.of_mem rfl rfl rfl), .inl ⟨?_, hback⟩⟩
    simp only [Vm.faultAnonymous, heq, hmap]
  · refine ⟨s1, A2, L2, V2, hupper, .inr ⟨?_, f, hpage⟩⟩
    simp only [Vm.faultAnonymous, heq, hmap]

end

end

/-! ### Freeing a page -/

/-- `as_free_page` of a page whose frame only stays mapped if it stays counted. -/
theorem asFreePage (h : Mapped s A L V) (ha : a ∈ V.live) (hv : pageOf virt < userPages)
    (hrest : ∀ k f, k ≠ (a, pageOf virt) → frameAt s V (a, pageOf virt) = some f →
      frameAt s V k = some f → 1 < L.refs f) :
    (frameAt s V (a, pageOf virt) = none ∧ Vm.asFreePage s a virt = s) ∨
      ∃ f A' L', frameAt s V (a, pageOf virt) = some f ∧
        Kept s A L V (Vm.asFreePage s a virt) A' L' V ∧
        leaf (Vm.asFreePage s a virt) V = update (leaf s V) (a, pageOf virt) none ∧
        L'.refs = update L.refs f (L.refs f - 1) := by
  obtain ⟨hleaf, heq⟩ | ⟨t, entry, ht, hleaf, heq⟩ := h.asUnmapPage_spec ha hv
  · exact .inl ⟨frameAt_of_leaf hleaf, by rw [Vm.asFreePage, heq]⟩
  right
  have hframe := frameAt_of_leaf hleaf
  have hf := h.counted _ _ hframe
  have hclear := h.setLeaf_kept 0 ht fun hp => absurd hp (by decide)
  have hzero : pteFrame entry ≠ 0 := by
    have := (h.window _ (h.accounts.frame_range (h.accounts.counted_live hf)).1).1
    omega
  have hcleared := h.leaf_setLeaf ht 0
  obtain ⟨A', hput⟩ := hclear.mapped.putFrame hf fun k hk => by
    by_cases hkey : k = (a, pageOf virt)
    · rw [frameAt, hcleared, hkey, update_self] at hk
      cases hk
    · rw [frameAt, hcleared, update_of_ne hkey] at hk
      exact hrest k _ hkey hframe hk
  have hfree : Vm.asFreePage s a virt =
      Vm.putFrame (s.setEntry t (pageOf virt % 512) 0) (pteFrame entry) := by
    simp [Vm.asFreePage, heq, if_neg hzero]
  rw [hfree]
  exact ⟨pteFrame entry, A', _, hframe, hclear.trans hput fun _ hq => hq, hcleared, rfl⟩

/-! ### Copy on write -/

/-- The entry of the copy of a COW page. -/
def copyEntry (g : Nat) (entry : Word) : Word :=
  (physWord g &&& pteAddrMask) ||| ((entry &&& ~~~pteAddrMask &&& ~~~pteCow) ||| pteWritable)

theorem pteFrame_copyEntry (entry : Word) (h : g < 2 ^ 40) : pteFrame (copyEntry g entry) = g := by
  rw [copyEntry, ← BitVec.or_assoc, pteFrame_or (by decide), pteFrame_or (flags_and_mask ..),
    pteFrame_and_mask, pteFrame_physWord h]

theorem has_present_copyEntry (h : has entry ptePresent = true) :
    has (copyEntry g entry) ptePresent = true := by
  have hflags : has (entry &&& ~~~pteAddrMask &&& ~~~pteCow) ptePresent = true := by
    rw [has_and (by decide), has_and (by decide), h]
  rw [copyEntry, has_or, has_or, hflags, Bool.true_or, Bool.or_true]

theorem has_writable_copyEntry (g : Nat) (entry : Word) :
    has (copyEntry g entry) pteWritable = true := by
  have hflag : has pteWritable pteWritable = true := by decide
  rw [copyEntry, has_or, has_or, hflag, Bool.or_true, Bool.or_true]

end Mapped

/-- A user write to page `k` went to frame `g`, after `f` was the frame of the page: in
place, or to a copy of its own. -/
structure Written (k : Nat × Nat) (f g : Nat) (entry : Word) (words : Nat → Word) (s : VmState)
    (A : Arena) (L : Ledger) (V : View) (s' : VmState) (A' : Arena) (L' : Ledger) : Prop where
  mapped : Mapped s' A' L' V
  machine : SameMachine s.pmm A s'.pmm A'
  others : L'.others = L.others
  spaces : s'.spaces = s.spaces
  cache : s'.cache = s.cache
  leaf : leaf s' V = update (leaf s V) k (some entry)
  frame : pteFrame entry = g
  writable : has entry pteWritable = true
  page : s'.mem g = words
  data : ∀ q, q ≠ g → 0 < L.refs q → s'.mem q = s.mem q
  how : (g = f ∧ L'.refs = L.refs ∧
      (L.refs f = 1 ∨ ∃ old, Vm.leaf s V k = some old ∧ has old pteWritable = true)) ∨
    (L.refs g = 0 ∧ 1 < L.refs f ∧ L'.refs = update (update L.refs g 1) f (L.refs f - 1))

namespace Mapped

variable {s s' : VmState} {A A' : Arena} {L L' : Ledger} {V V' : View} {a f : Nat}

/-- A leaf found by `as_get_pte`. -/
theorem leaf_node (hleaf : leaf s V k = some entry) :
    ∃ t, V.tables.node k.1 0 (k.2 / 512) = some t ∧ s.mem t (k.2 % 512) = entry ∧
      has entry ptePresent = true := by
  obtain ⟨t, ht, hent⟩ := bind_eq_some_iff.mp hleaf
  rw [presentAt] at hent
  split at hent
  · next hpres =>
    cases hent
    exact ⟨t, ht, rfl, hpres⟩
  · cases hent

/-- A COW fault fails for lack of memory, or makes the page writable: in place, when the
page has the only reference to its frame, or as a copy. -/
theorem handleCowFault (h : Mapped s A L V) (ha : a ∈ V.live)
    (hv : pageOf virt < userPages) (hleaf : leaf s V (a, pageOf virt) = some old)
    (hcow : has old pteCow = true) : Vm.handleCowFault s a virt = (false, s) ∨
      ∃ s' A' L' g entry, Vm.handleCowFault s a virt = (true, s') ∧
        SameUpper A.frames V.live s s' ∧
        Written (a, pageOf virt) (pteFrame old) g entry (s.mem (pteFrame old)) s A L V
          s' A' L' := by
  obtain ⟨t, ht, hmem, hpres⟩ := leaf_node hleaf
  have hf := h.counted _ _ (frameAt_of_leaf hleaf)
  have hcnt := (h.accounts.counted _ hf).2
  have hinside : ¬ s.pmm.totalPages ≤ pteFrame old := not_le.mpr (h.accounts.counted_lt hf)
  simp only [Vm.handleCowFault, h.asGetPte_none hv ha, ht, map_some, hmem, hpres, hcow,
    Bool.not_true, Bool.or_self, Bool.false_eq_true, if_false, if_neg hinside, hcnt]
  by_cases hone : L.refs (pteFrame old) = 1
  · rw [if_pos hone]
    right
    have hmask : ~~~pteCow &&& pteAddrMask = pteAddrMask := by decide
    have hent : pteFrame ((old ||| pteWritable) &&& ~~~pteCow) = pteFrame old := by
      rw [pteFrame, BitVec.and_assoc, hmask, ← pteFrame, pteFrame_or (by decide)]
    have hpresent' : has ((old ||| pteWritable) &&& ~~~pteCow) ptePresent = true := by
      rw [has_and (by decide), has_or, hpres, Bool.true_or]
    have hset := h.setLeaf_kept ((old ||| pteWritable) &&& ~~~pteCow) ht fun _ => hent ▸ hf
    refine ⟨_, A, L, pteFrame old, (old ||| pteWritable) &&& ~~~pteCow, rfl, h.setLeaf_upper ht _ _,
      hset.mapped, .refl _ _, rfl, rfl, rfl, ?_, hent, ?_, hset.data _ hf,
      fun q _ => hset.data q, .inl ⟨rfl, rfl, .inl hone⟩⟩
    · rw [h.leaf_setLeaf ht, if_pos hpresent']
    · rw [has_and (by decide), has_or, show has pteWritable pteWritable = true from by decide,
        Bool.or_true]
  rw [if_neg hone]
  obtain heq | ⟨g, m, A1, heq, hfresh, hwindow, halloc⟩ := h.allocFrame
  · left
    rw [heq]
  right
  rw [heq]
  have hgone : 0 < (L.setRefs g 1).refs g := update_one_pos (.inl rfl)
  have hpos := fun q => setRefs_pos L (f := g) (q := q) one_pos
  obtain ⟨s1, hs1, hfill, hleaf1, hpage, hupper1⟩ :=
    fillFresh halloc hfresh.2.1 (s.mem (pteFrame old))
  simp only [hs1]
  have hent : pteFrame (copyEntry g old) = g := pteFrame_copyEntry old (inWindow_lt hwindow)
  have hset := hfill.mapped.setLeaf_kept (copyEntry g old) ht fun _ => by rw [hent]; exact hgone
  have hleaf2 : leaf (s1.setEntry t (pageOf virt % 512) (copyEntry g old)) V =
      update (leaf s V) (a, pageOf virt) (some (copyEntry g old)) := by
    rw [hfill.mapped.leaf_setLeaf ht, if_pos (has_present_copyEntry hpres), hleaf1]
  have hne : pteFrame old ≠ g := fun he => hf.ne' (he ▸ hfresh.2.1)
  have hold := setRefs_of_ne L hne 1
  obtain ⟨A2, hput⟩ := hset.mapped.putFrame (hold ▸ hf) fun k _ => by rw [hold]; omega
  have hkept := (hfill.trans hset hpos).trans hput hpos
  have hupper := hfill.mapped.setLeaf_upper ht (pageOf virt % 512) (copyEntry g old)
  rw [hfill.machine.frames] at hupper
  refine ⟨_, A2, _, g, copyEntry g old, rfl, (hupper1.trans hupper).trans (.of_mem rfl rfl rfl),
    hkept.mapped, hkept.machine, hkept.others, hkept.spaces, hkept.cache, hleaf2, hent,
    has_writable_copyEntry g old, (hset.data g hgone).trans hpage, fun q _ => hkept.data q,
    .inr ⟨hfresh.2.1, by omega, ?_⟩⟩
  rw [← hold]
  rfl

/-- A word of a counted frame is stored. -/
theorem storeWord (h : Mapped s A L V) (hf : 0 < L.refs (pteFrame entry)) (virt : Nat)
    (update : Word → Word) : Mapped (Vm.storeWord s entry virt update) A L V ∧
      leaf (Vm.storeWord s entry virt update) V = leaf s V := by
  refine h.write rfl rfl fun t ht => s.setEntry_mem_of_ne ?_ _ _
  rintro rfl
  exact h.accounts.counted_not_table hf ht

theorem storeWord_upper (h : Mapped s A L V) (hf : 0 < L.refs (pteFrame entry)) (virt : Nat)
    (update : Word → Word) : SameUpper A.frames V.live s (Vm.storeWord s entry virt update) :=
  h.toPaging.fill_upper (h.accounts.frame_range (h.accounts.counted_live hf)).1
    (h.accounts.counted_not_table hf) _

/-- The page after a store. -/
def stored (virt : Nat) (update : Word → Word) (words : Nat → Word) : Nat → Word :=
  Function.update words (virt % pageSize / 8) (update (words (virt % pageSize / 8)))

/-- After a write, the word is stored into the frame written to. -/
theorem storeWritten {words} (h : Written k f g entry words s A L V s' A' L')
    (update : Word → Word) :
    Written k f g entry (stored virt update words) s A L V (Vm.storeWord s' entry virt update) A'
      L' := by
  have hframe : frameAt s' V k = some g := by
    rw [frameAt, h.leaf, update_self, map_some, h.frame]
  obtain ⟨hmap, hleaf⟩ := h.mapped.storeWord (h.frame ▸ h.mapped.counted k g hframe) virt update
  refine ⟨hmap, h.machine, h.others, h.spaces, h.cache, hleaf.trans h.leaf, h.frame, h.writable,
    ?_, fun q hq hcnt => ?_, h.how⟩
  · have hpage := h.page
    subst hpage
    simp [Vm.storeWord, h.frame, VmState.setEntry, stored]
  · rw [← h.data q hq hcnt]
    exact VmState.setEntry_mem_of_ne _ (h.frame.symm ▸ hq) _ _

section

variable (h : Mapped s A L V) (ha : a ∈ V.live) (hv : pageOf virt < userPages)
include h ha hv

/-- A write to a writable page goes to its frame. -/
theorem userWrite_writable (hleaf : leaf s V (a, pageOf virt) = some old)
    (hw : has old pteWritable = true) (update : Word → Word) :
    Vm.userWrite s a virt update = (true, Vm.storeWord s old virt update) ∧
      Written (a, pageOf virt) (pteFrame old) (pteFrame old) old
        (stored virt update (s.mem (pteFrame old))) s A L V
          (Vm.storeWord s old virt update) A L := by
  have hself : Written (a, pageOf virt) (pteFrame old) (pteFrame old) old
      (s.mem (pteFrame old)) s A L V s A L := by
    refine ⟨h, .refl _ _, rfl, rfl, rfl, ?_, rfl, hw, rfl, fun _ _ _ => rfl,
      .inl ⟨rfl, rfl, .inr ⟨old, hleaf, hw⟩⟩⟩
    rw [← hleaf, update_eq_self]
  refine ⟨?_, storeWritten hself update⟩
  rw [Vm.userWrite, presentPte_eq h.toPaging ha hv, hleaf]
  simp [hw]

/-- A user write has no effect, or goes to the frame of the page or to a copy. -/
theorem userWrite (update : Word → Word) :
    Vm.userWrite s a virt update = (false, s) ∨
      ∃ s' A' L' old g entry, Vm.userWrite s a virt update = (true, s') ∧
        SameUpper A.frames V.live s s' ∧ leaf s V (a, pageOf virt) = some old ∧
          Written (a, pageOf virt) (pteFrame old) g entry
          (stored virt update (s.mem (pteFrame old))) s A L V s' A' L' := by
  cases hleaf : leaf s V (a, pageOf virt) with
  | none =>
    left
    rw [Vm.userWrite, presentPte_eq h.toPaging ha hv, hleaf]
  | some old =>
    by_cases hw : has old pteWritable = true
    · obtain ⟨heq, hwr⟩ := h.userWrite_writable ha hv hleaf hw update
      have hcnt := h.counted (a, pageOf virt) _ (frameAt_of_leaf hleaf)
      exact .inr ⟨_, A, L, old, _, old, heq, h.storeWord_upper hcnt virt update, rfl, hwr⟩
    rw [Vm.userWrite, presentPte_eq h.toPaging ha hv, hleaf]
    by_cases hcow : has old pteCow = true
    · obtain heq | ⟨s', A', L', g, entry, heq, hupper, hwr⟩ :=
        h.handleCowFault ha hv hleaf hcow
      · exact .inl (by simp [hw, hcow, heq])
      have hagain : presentPte s' a virt = some entry := by
        rw [presentPte_eq hwr.mapped.toPaging ha hv, hwr.leaf, update_self]
      have hstore := hwr.mapped.storeWord_upper (hwr.mapped.counted (a, pageOf virt) _
        (by rw [frameAt, hwr.leaf, update_self]; rfl)) virt update
      rw [hwr.machine.frames] at hstore
      exact .inr ⟨_, A', L', old, g, entry,
        by simp [hw, hcow, heq, hagain, hwr.writable], hupper.trans hstore, rfl,
        storeWritten hwr update⟩
    · exact .inl (by simp [hw, hcow])

end

end Mapped

end Kurios.Vm
