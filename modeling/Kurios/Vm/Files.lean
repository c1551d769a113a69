import Kurios.Vm.Cache

/-!
Histories of file mappings, without `as_clone`.

No call in such a history takes a reference on a frame: `page_cache_get` hands out the
frame of an entry as it is, and mapping it does not count. Every frame in use has the
one reference it was allocated with (`FileInv.one`), whoever drops it first frees the
frame. So a history is safe exactly as long as the last user is the one who drops it,
which is the condition `VmHistory.FileSafe`.
-/

namespace Kurios.Vm

open Base Pmm Function Option Finset List

variable {es : List CacheEntry} {as file i virt : Nat} {k : Nat × Nat} {words : Nat → Word}
  {allocated : Bool} {vmas : Option (List Region)} {call : VmCall}

/-- No two entries have the same frame. -/
structure Distinct (c : Nat → List CacheEntry) : Prop where
  nodup : ∀ i, ((c i).map CacheEntry.frame).Nodup
  apart : ∀ i j, i ≠ j → ∀ e ∈ c i, ∀ e' ∈ c j, e.frame ≠ e'.frame

namespace Distinct

variable {c c' : Nat → List CacheEntry}

theorem frames_of_keys {es' : List CacheEntry}
    (h : es'.map CacheEntry.key = es.map CacheEntry.key) :
    es'.map CacheEntry.frame = es.map CacheEntry.frame := by
  have hmap := congrArg (map fun k : Nat × Nat × Nat => k.2.2) h
  rw [List.map_map, List.map_map] at hmap
  exact hmap

theorem sameKeys (h : Distinct c) (hkeys : SameKeys c c') : Distinct c' where
  nodup i := by
    rw [frames_of_keys (hkeys i)]
    exact h.nodup i
  apart i j hij e he e' he' := by
    obtain ⟨d, hd, hkey⟩ := hkeys.exists_mem he
    obtain ⟨d', hd', hkey'⟩ := hkeys.exists_mem he'
    have hframe : d.frame = e.frame := congrArg (fun k => k.2.2) hkey
    have hframe' : d'.frame = e'.frame := congrArg (fun k => k.2.2) hkey'
    rw [← hframe, ← hframe']
    exact h.apart i j hij d hd d' hd'

/-- A chain is replaced by part of it. -/
theorem shrink (h : Distinct c) (hes : es.Sublist (c i)) : Distinct (update c i es) := by
  have hsub : ∀ j, (update c i es j).Sublist (c j) := by
    intro j
    by_cases hj : j = i
    · subst hj
      rw [update_self]
      exact hes
    · rw [update_of_ne hj]
  constructor
  · intro j
    exact (h.nodup j).sublist ((hsub j).map _)
  · intro j k hjk e he e' he'
    exact h.apart j k hjk e ((hsub j).subset he) e' ((hsub k).subset he')

/-- An entry with a new frame is added. -/
theorem insert (h : Distinct c) {e} (hnew : ∀ j, ∀ e' ∈ c j, e'.frame ≠ e.frame) :
    Distinct (update c i (e :: c i)) := by
  have hmem : ∀ j, ∀ e' ∈ update c i (e :: c i) j, e' ∈ c j ∨ (j = i ∧ e' = e) := by
    intro j e' he'
    by_cases hj : j = i
    · subst hj
      rw [update_self] at he'
      rcases List.mem_cons.mp he' with rfl | he'
      · exact .inr ⟨rfl, rfl⟩
      · exact .inl he'
    · rw [update_of_ne hj] at he'
      exact .inl he'
  constructor
  · intro j
    by_cases hj : j = i
    · subst hj
      rw [update_self, List.map_cons, nodup_cons]
      refine ⟨fun hin => ?_, h.nodup j⟩
      obtain ⟨e', he', hframe⟩ := mem_map.mp hin
      exact hnew j e' he' hframe
    · rw [update_of_ne hj]
      exact h.nodup j
  intro j k hjk d hd d' hd'
  rcases hmem j d hd with hold | ⟨rfl, rfl⟩
  · rcases hmem k d' hd' with hold' | ⟨rfl, rfl⟩
    · exact h.apart j k hjk d hold d' hold'
    · exact hnew j d hold
  · rcases hmem k d' hd' with hold' | ⟨rfl, -⟩
    · exact (hnew k d' hold').symm
    · exact absurd rfl hjk

end Distinct

/-! ### One reference for each frame -/

/-- Every frame in use has one reference, and cached frames are in use. -/
structure FileInv (s : VmState) (A : Arena) (L : Ledger) (V : View) : Prop extends
    Mapped s A L V where
  one : ∀ f, L.refs f ≤ 1
  cached : ∀ f, Cached s f → 0 < L.refs f
  distinct : Distinct s.cache

namespace FileInv

variable {s s' : VmState} {A A' : Arena} {L L' : Ledger} {V V' : View} {a f : Nat}

section

variable (h : FileInv s A L V)
include h

/-- The cache keeps its keys, and no cached frame loses its reference. -/
theorem kept (hmap : Mapped s' A' L' V') (hkeys : SameKeys s.cache s'.cache)
    (hone : ∀ f, L'.refs f ≤ 1) (hpos : ∀ f, Cached s f → 0 < L'.refs f) : FileInv s' A' L' V' where
  toMapped := hmap
  one := hone
  cached f hf := hpos f (hkeys.cached hf)
  distinct := h.distinct.sameKeys hkeys

/-- The references are as before. -/
theorem same_refs (hmap : Mapped s' A' L' V') (hkeys : SameKeys s.cache s'.cache)
    (hrefs : L'.refs = L.refs) : FileInv s' A' L' V' := by
  apply h.kept hmap hkeys <;> rw [hrefs]
  · exact h.one
  · exact h.cached

theorem update_one_le (f q : Nat) : update L.refs f 1 q ≤ 1 := by
  by_cases hq : q = f
  · rw [hq, update_self]
  · rw [update_of_ne hq]
    exact h.one q

/-- A frame got its first reference. -/
theorem new_ref (hmap : Mapped s' A' L' V') (hkeys : SameKeys s.cache s'.cache)
    (hrefs : L'.refs = update L.refs f 1) : FileInv s' A' L' V' := by
  apply h.kept hmap hkeys <;> rw [hrefs]
  · exact h.update_one_le f
  · exact fun q hq => update_one_pos (.inr (h.cached q hq))

theorem gotPage {offset frame}
    (hg : GotPage file offset allocated frame s A L V s' A' L') : FileInv s' A' L' V := by
  obtain ⟨hrefs, hkeys, -⟩ | ⟨f, rfl, hzero, hrefs, -, ⟨-, hkeys⟩ | hins⟩ := hg.how
  · exact h.same_refs hg.mapped hkeys hrefs
  · exact h.new_ref hg.mapped hkeys hrefs
  refine ⟨hg.mapped, fun q => ?_, fun q hq => ?_, ?_⟩
  · rw [hrefs]
    exact h.update_one_le f q
  · rw [hrefs]
    exact update_one_pos ((hins.cached hq).imp_right (h.cached q))
  obtain ⟨e, hkey, hcache⟩ := hins
  rw [hcache]
  refine h.distinct.insert fun j e' he' heq => ?_
  have hframe : e.frame = f := congrArg (fun k => k.2.2) hkey
  exact (h.cached f ⟨j, e', he', heq.trans hframe⟩).ne' hzero

theorem recache {c} (hkeys : SameKeys s.cache c) : FileInv { s with cache := c } A L V :=
  h.kept (h.toMapped.recache c) hkeys h.one h.cached

/-- A write never copies: the frame has one reference. -/
theorem written {g e} (hw : Written k f g e words s A L V s' A' L') : FileInv s' A' L' V := by
  obtain ⟨-, hrefs, -⟩ | ⟨-, hmany, -⟩ := hw.how
  · exact h.same_refs hw.mapped (.of_eq hw.cache) hrefs
  · exact absurd (h.one f) (not_le.mpr hmany)

theorem created (hc : Created a vmas s A L V s' A' L' V') : FileInv s' A' L' V' :=
  h.same_refs (h.toMapped.created hc) (.of_eq hc.cache) hc.refs

/-- A demand fault. -/
theorem handleDemandFault (ha : a ∈ V.live) (hv : pageOf virt < userPages)
    (data : Option (Nat → Word)) (allocated : Bool) :
    ∃ ok s' A' L' V', Vm.handleDemandFault s a virt data allocated = (ok, s') ∧
      FileInv s' A' L' V' ∧ V'.live = V.live ∧ L'.others = L.others ∧ A'.frames = A.frames ∧
        SameUpper A.frames V.live s s' := by
  obtain heq | ⟨r, -, ⟨hfile, heq⟩ | ⟨-, heq⟩⟩ := handleDemandFault_cases s a virt data allocated
  · exact ⟨false, s, A, L, V, heq, h, rfl, rfl, rfl, .refl s⟩
  · obtain ⟨frame, s1, A1, L1, hgot, ok, s2, A2, L2, V2, c, hpl, hupper, hkeys, hres⟩ :=
      h.toMapped.faultFile ha hv h.cached hfile data allocated
    have hinv := (h.gotPage hgot).same_refs hpl.mapped (.of_eq hpl.cache) hpl.refs
    exact ⟨ok, _, A2, L2, V2, heq.trans hres, hinv.recache hkeys, hpl.live,
      hpl.others.trans hgot.others,
      hpl.machine.frames.trans hgot.machine.frames, hupper.trans (.of_mem rfl rfl rfl)⟩
  obtain ⟨s', A', L', V', hupper, ⟨hres, hu⟩ | ⟨hres, f, hp⟩⟩ := h.toMapped.faultAnonymous ha hv r
  · exact ⟨false, s', A', L', V', heq.trans hres,
      h.same_refs hu.mapped (.of_eq hu.cache) hu.refs, hu.live, hu.others, hu.machine.frames,
      hupper⟩
  · exact ⟨true, s', A', L', V', heq.trans hres,
      h.new_ref hp.mapped (.of_eq hp.cache) hp.refs, hp.live, hp.others, hp.machine.frames, hupper⟩

/-- `as_free_page` of the only page of a frame that is not cached. -/
theorem asFreePage (ha : a ∈ V.live) (hv : pageOf virt < userPages)
    (hsole : ∀ f, frameAt s V (a, pageOf virt) = some f → ¬ Cached s f ∧ mapCount s V f ≤ 1) :
    ∃ A' L', FileInv (Vm.asFreePage s a virt) A' L' V ∧ L'.others = L.others ∧
      A'.frames = A.frames := by
  have hrest : ∀ k f, k ≠ (a, pageOf virt) → frameAt s V (a, pageOf virt) = some f →
      frameAt s V k = some f → 1 < L.refs f := by
    intro k f hne hf hk
    have hpages : k = (a, pageOf virt) :=
      eq_of_hits_le_one (hsole f hf).2 (h.key_mem hk) (h.key_mem hf) hk hf
    exact absurd hpages hne
  obtain ⟨-, heq⟩ | ⟨f, A', L', hf, hkept, -, hrefs⟩ := h.toMapped.asFreePage ha hv hrest
  · rw [heq]
    exact ⟨A, L, h, rfl, rfl⟩
  refine ⟨A', L', h.kept hkept.mapped (hkept.cache ▸ .refl _) (fun q => ?_) (fun q hq => ?_),
    hkept.others, hkept.machine.frames⟩
  · rw [hrefs]
    by_cases hqf : q = f
    · have := h.one f
      rw [hqf, update_self]
      omega
    · rw [update_of_ne hqf]
      exact h.one q
  · have hqf : q ≠ f := fun he => (hsole f hf).1 (he ▸ hq)
    rw [hrefs, update_of_ne hqf]
    exact h.cached q hq

/-- `as_destroy` of an address space whose frames nobody else uses. -/
theorem asDestroy (ha : a ∈ V.live)
    (hsole : ∀ v f, frameAt s V (a, v) = some f → ¬ Cached s f ∧ mapCount s V f ≤ 1) :
    ∃ A' L' V', FileInv (Vm.asDestroy s a) A' L' V' ∧ V'.live = V.live.erase a ∧
      L'.others = L.others := by
  have hin : ∀ f, 0 < countIn s V a f → ¬ Cached s f ∧ mapCount s V f ≤ 1 ∧ 0 < L.refs f := by
    intro f hcnt
    obtain ⟨⟨b, v⟩, hmem, hframe⟩ := hits_pos_iff.mp hcnt
    simp only [Finset.mem_product, Finset.mem_singleton] at hmem
    obtain ⟨rfl, -⟩ := hmem
    exact ⟨(hsole v f hframe).1, (hsole v f hframe).2, h.counted _ f hframe⟩
  have hsplit := fun f => Exact.mapCount_split (s := s) ha f
  have hroom : ∀ f, countIn s V a f ≤ L.refs f := by
    intro f
    by_contra hlt
    obtain ⟨-, hle, hpos⟩ := hin f (by omega)
    rw [hsplit] at hle
    omega
  have hrest : ∀ k f, k.1 ≠ a → frameAt s V k = some f → countIn s V a f < L.refs f := by
    intro k f hk hkf
    have hpos : 0 < hits ((V.live.erase a) ×ˢ Finset.range userPages) (frameAt s V) f := by
      have hkey := mem_product.mp (h.key_mem hkf)
      exact hits_pos_iff.mpr ⟨k, mem_product.mpr ⟨mem_erase.mpr ⟨hk, hkey.1⟩, hkey.2⟩, hkf⟩
    have hzero : countIn s V a f = 0 := by
      by_contra hne
      obtain ⟨-, hle, -⟩ := hin f (pos_of_ne_zero hne)
      rw [hsplit] at hle
      omega
    rw [hzero]
    exact h.counted k f hkf
  obtain ⟨A', L', V', hd⟩ := h.toMapped.asDestroy ha hroom hrest
  refine ⟨A', L', V', h.kept hd.mapped (hd.cache ▸ .refl _) (fun q => ?_) (fun q hq => ?_), hd.live,
    hd.others⟩
  · have := h.one q
    rw [hd.refs]
    omega
  have hzero : countIn s V a q = 0 := by
    by_contra hne
    exact (hin q (pos_of_ne_zero hne)).1 hq
  rw [hd.refs, hzero]
  exact h.cached q hq

end

/-! ### `page_cache_invalidate` -/

/-- What freeing the entries of one chain did: some frames of the file lost their
reference, and nothing else happened. -/
structure Invalidated (file : Nat) (chain kept : List CacheEntry) (s : VmState) (A : Arena)
    (L : Ledger) (V : View) (s' : VmState) (A' : Arena) (L' : Ledger) : Prop where
  mapped : Mapped s' A' L' V
  others : L'.others = L.others
  same : s' = { s with pmm := s'.pmm }
  sublist : kept.Sublist chain
  other : ∀ e ∈ kept, e.file ≠ file
  le : ∀ f, L'.refs f ≤ L.refs f
  refs : ∀ f, (∀ e ∈ chain, e.file = file → e.frame ≠ f) → L'.refs f = L.refs f

theorem invalidateChain {chain} (h : Mapped s A L V)
    (hcounted : ∀ e ∈ chain, 0 < L.refs e.frame) (hnd : (chain.map CacheEntry.frame).Nodup)
    (hfree : ∀ e ∈ chain, e.file = file → e.refcount ≤ 1 → ∀ k, frameAt s V k ≠ some e.frame) :
    ∃ kept s' A' L', Vm.invalidateChain file chain s = (kept, s') ∧
      Invalidated file chain kept s A L V s' A' L' := by
  induction chain generalizing s A L with
  | nil => exact ⟨[], s, A, L, rfl, h, rfl, rfl, .refl _, by simp, fun _ => le_rfl, fun _ _ => rfl⟩
  | cons e es ih =>
    rw [List.map_cons, nodup_cons] at hnd
    have hrest := fun e' (he' : e' ∈ es) => hcounted e' (mem_cons_of_mem e he')
    have hother : ∀ e' ∈ es, e'.frame ≠ e.frame := fun e' he' heq =>
      hnd.1 (heq ▸ mem_map_of_mem he')
    rw [Vm.invalidateChain]
    by_cases hfile : e.file = file
    · rw [if_pos hfile]
      by_cases hcnt : e.refcount ≤ 1
      · rw [if_pos hcnt]
        obtain ⟨A1, hkept⟩ := h.freeFrame (hcounted e mem_cons_self)
          (hfree e mem_cons_self hfile hcnt)
        have hcounted1 : ∀ e' ∈ es, 0 < (L.setRefs e.frame 0).refs e'.frame := by
          intro e' he'
          rw [Mapped.setRefs_of_ne L (hother e' he')]
          exact hrest e' he'
        obtain ⟨kept, s', A', L', heq, hi⟩ := ih hkept.mapped hcounted1 hnd.2 fun e' he' =>
          hfree e' (mem_cons_of_mem e he')
        refine ⟨kept, s', A', L', heq, hi.mapped, hi.others, ?_, hi.sublist.cons e, hi.other,
          fun f => ?_, fun f hf => ?_⟩
        · rw [hi.same]
          rfl
        · refine (hi.le f).trans ?_
          by_cases hfe : f = e.frame
          · rw [hfe, Mapped.setRefs_self]
            exact zero_le
          · rw [Mapped.setRefs_of_ne L hfe]
        · have hne : f ≠ e.frame := fun he => hf e mem_cons_self hfile he.symm
          rw [hi.refs f fun e' he' => hf e' (mem_cons_of_mem e he'), Mapped.setRefs_of_ne L hne]
      rw [if_neg hcnt]
      obtain ⟨kept, s', A', L', heq, hi⟩ := ih h hrest hnd.2 fun e' he' =>
        hfree e' (mem_cons_of_mem e he')
      exact ⟨kept, s', A', L', heq, hi.mapped, hi.others, hi.same, hi.sublist.cons e, hi.other,
        hi.le, fun f hf => hi.refs f fun e' he' => hf e' (mem_cons_of_mem e he')⟩
    rw [if_neg hfile]
    obtain ⟨kept, s', A', L', heq, hi⟩ := ih h hrest hnd.2 fun e' he' =>
      hfree e' (mem_cons_of_mem e he')
    refine ⟨e :: kept, s', A', L', ?_, hi.mapped, hi.others, hi.same, hi.sublist.cons_cons e, ?_,
      hi.le, fun f hf => hi.refs f fun e' he' => hf e' (mem_cons_of_mem e he')⟩
    · simp [heq]
    rintro e' he'
    rcases List.mem_cons.mp he' with rfl | he'
    · exact hfile
    · exact hi.other e' he'

/-- `page_cache_invalidate` of a file none of whose frames that it frees is mapped. -/
theorem pageCacheInvalidate (h : FileInv s A L V)
    (hfree : ∀ i, ∀ e ∈ s.cache i, e.file = file → e.refcount ≤ 1 → mapCount s V e.frame = 0) :
    ∃ A' L', FileInv (Vm.pageCacheInvalidate s file) A' L' V ∧ L'.others = L.others := by
  unfold Vm.pageCacheInvalidate
  split
  · exact ⟨A, L, h, rfl⟩
  -- Chains from number `i` on are as they were, and the page tables did not change.
  refine (forRange_inv (fun i t => (∃ A' L', FileInv t A' L' V ∧ L'.others = L.others) ∧
    leaf t V = leaf s V ∧ ∀ j, i ≤ j → t.cache j = s.cache j) zero_le
    ⟨⟨A, L, h, rfl⟩, rfl, fun _ _ => rfl⟩ ?_).1
  rintro i t - hi ⟨⟨A1, L1, hinv, hoth⟩, hleaf, hcache⟩
  have hunmapped : ∀ e ∈ t.cache i, e.file = file → e.refcount ≤ 1 →
      ∀ k, frameAt t V k ≠ some e.frame := by
    intro e he hfile hcnt k hk
    rw [hcache i (le_refl i)] at he
    rw [frameAt, hleaf] at hk
    have hpos := h.mapCount_pos_iff.mpr ⟨k, hk⟩
    rw [hfree i e he hfile hcnt] at hpos
    exact lt_irrefl 0 hpos
  obtain ⟨kept, t', A2, L2, heq, hinval⟩ := invalidateChain hinv.toMapped
    (fun e he => hinv.cached _ ⟨i, e, he, rfl⟩) (hinv.distinct.nodup i) hunmapped
  have hcache' : t'.cache = t.cache := by rw [hinval.same]
  simp only [heq]
  refine ⟨⟨A2, L2, ⟨hinval.mapped.recache _, fun f => ?_, fun f hf => ?_, ?_⟩,
    hinval.others.trans hoth⟩, ?_, fun j hj => ?_⟩
  · exact (hinval.le f).trans (hinv.one f)
  · -- An entry that is left has a frame of its own.
    obtain ⟨j, e, he, rfl⟩ := hf
    have hkeep : e ∈ t.cache j ∧ ∀ e' ∈ t.cache i, e'.file = file → e'.frame ≠ e.frame := by
      by_cases hj : j = i
      · subst hj
        simp only [VmState.setChain, update_self] at he
        refine ⟨hinval.sublist.subset he, fun e' he' hfile heq' => hinval.other e he ?_⟩
        rw [← inj_on_of_nodup_map (hinv.distinct.nodup j) he' (hinval.sublist.subset he) heq']
        exact hfile
      · simp only [VmState.setChain, update_of_ne hj, hcache'] at he
        exact ⟨he, fun e' he' _ => (hinv.distinct.apart j i hj e he e' he').symm⟩
    rw [hinval.refs _ hkeep.2]
    exact hinv.cached _ ⟨j, e, hkeep.1, rfl⟩
  · simp only [VmState.setChain, hcache']
    exact hinv.distinct.shrink hinval.sublist
  · rw [← hleaf]
    rw [hinval.same]
    rfl
  · have hne : j ≠ i := by omega
    simp only [VmState.setChain, update_of_ne hne, hcache']
    exact hcache j (by omega)

/-- Others allocate and free. -/
theorem others_move (h : FileInv s A L V) {m others}
    (hmach : SameMachine s.pmm A m A') (hacc : Accounts m A' { L with others := others }) :
    FileInv { s with pmm := m } A' { L with others := others } V where
  toMapped := h.toMapped.move hmach hacc h.counted
  __ := h

/-- At boot, nothing is mapped and the cache is empty. -/
theorem start (B : VmBoot) :
    FileInv B.start.state B.arena ⟨B.arena.live, ∅, fun _ => 0⟩ ⟨∅, ⟨fun _ _ _ => none⟩⟩ := by
  have hemp : ∀ f, ¬ Cached B.state f := by
    rintro f ⟨i, e, he, -⟩
    rw [B.cache] at he
    cases he
  refine ⟨(VmHistory.Tracks.start B).exact.toMapped, fun f => zero_le, fun f hf => ?_, ?_⟩
  · exact absurd hf (hemp f)
  · have hcache : B.start.state.cache = fun _ => [] := B.cache
    rw [hcache]
    exact ⟨fun _ => nodup_nil, fun _ _ _ _ he => by cases he⟩

end FileInv

/-! ### Every history -/

/-- Nothing but one page refers to the frame. -/
def VmHistory.Sole (h : VmHistory) (f : Nat) : Prop := ¬ Cached h.state f ∧ h.pteCount f ≤ 1

/-- The calls on file mappings. -/
def VmCall.OnFiles : VmCall → Prop
  | .clone .. => False
  | _ => True

/-- A call on file mappings of the user half whose frames, if it frees any, nobody else
uses: a page is unmapped only if its frame is neither cached nor mapped elsewhere, and a
file is invalidated only while no frame of it that would be freed is mapped. -/
def VmHistory.FileSafe (h : VmHistory) (call : VmCall) : Prop :=
  call.OnFiles ∧ call.UserHalf ∧
  match call with
  | .freePage as virt => ∀ e, presentPte h.state as virt = some e → h.Sole (pteFrame e)
  | .destroy as => ∀ v < userPages, ∀ e, presentPte h.state as (v * pageSize) = some e →
      h.Sole (pteFrame e)
  | .cacheInvalidate file => ∀ i, ∀ e ∈ h.state.cache i, e.file = file → e.refcount ≤ 1 →
      h.pteCount e.frame = 0
  | _ => True

/-- The calls that change counters and dirty bits of cache entries only. -/
def VmCall.recaches : VmCall → Bool
  | .cacheRef .. | .cachePut .. | .cacheMarkDirty .. | .cacheSync .. => true
  | _ => false

theorem VmHistory.perform_recache {h h' : VmHistory} {ok : Bool} (hcall : call.recaches = true)
    (hstep : h.perform call = some (ok, h')) :
    ∃ c, SameKeys h.state.cache c ∧ h' = h.withState { h.state with cache := c } := by
  have hent : ∀ {s' file offset} {g : CacheEntry → CacheEntry},
      s' = (if file = 0 then h.state else modifyEntry h.state file offset g) →
      (∀ e, (g e).key = e.key) →
      ∃ c, SameKeys h.state.cache c ∧ h.withState s' = h.withState { h.state with cache := c } := by
    rintro _ file offset g rfl hg
    refine ⟨_, .entry h.state file offset hg, ?_⟩
    split <;> rfl
  cases call with
  | cacheRef | cachePut | cacheMarkDirty =>
    cases hstep
    exact hent rfl fun _ => rfl
  | cacheSync file written =>
    cases hstep
    exact ⟨_, .sync h.state file written, rfl⟩
  | _ => cases hcall

/-- What accounts for the state of a history of file mappings. -/
def VmHistory.FileTracks (h : VmHistory) : Prop :=
  ∃ A L V, FileInv h.state A L V ∧ V.live = h.live ∧ L.others = h.others

namespace VmHistory.FileTracks

variable {h h' : VmHistory} {ok : Bool} {A : Arena} {L : Ledger} {V : View}

section

variable (hinv : FileInv h.state A L V) (hlive : V.live = h.live) (hoth : L.others = h.others)
include hinv hlive hoth

theorem create {handle} (hstep : h.perform (.create handle vmas) = some (ok, h')) :
    h'.FileTracks := by
  obtain ⟨hnew, rfl, rfl⟩ := perform_create hstep
  rw [← hlive] at hnew
  obtain heq | ⟨a, s', A', L', V', rfl, heq, hc⟩ := hinv.toPaging.asCreate_spec handle vmas hnew
  · rw [heq]
    exact ⟨A, L, V, hinv, hlive, hoth⟩
  rw [heq]
  refine ⟨A', L', V', hinv.created hc, ?_, hc.others.trans hoth⟩
  rw [hc.live, hlive]
  rfl

theorem fault {addr data} (huser : addr < 2 ^ 47)
    (hstep : h.perform (.fault as addr data allocated) = some (ok, h')) : h'.FileTracks := by
  obtain ⟨has, -, rfl, rfl⟩ := perform_fault hstep
  obtain ⟨ok', s', A', L', V', heq, hinv', hlive', hothers', -⟩ :=
    hinv.handleDemandFault (hlive ▸ has) (pageOf_user huser) data allocated
  rw [heq]
  exact ⟨A', L', V', hinv', hlive'.trans hlive, hothers'.trans hoth⟩

theorem write {update} (huser : virt < 2 ^ 47)
    (hstep : h.perform (.write as virt update) = some (ok, h')) : h'.FileTracks := by
  obtain ⟨has, rfl, rfl⟩ := perform_write hstep
  obtain heq | ⟨s', A', L', old, g, entry, heq, -, -, hw⟩ :=
    hinv.toMapped.userWrite (hlive ▸ has) (pageOf_user huser) update <;> rw [heq]
  · exact ⟨A, L, V, hinv, hlive, hoth⟩
  · exact ⟨A', L', V, hinv.written hw, hlive, hw.others.trans hoth⟩

theorem freePage (hsafe : h.FileSafe (.freePage as virt))
    (hstep : h.perform (.freePage as virt) = some (ok, h')) : h'.FileTracks := by
  obtain ⟨-, huser, hsole⟩ := hsafe
  obtain ⟨has, ⟨⟩⟩ := ite_eq_some hstep
  rw [← hlive] at has
  have hv := pageOf_user huser
  obtain ⟨A', L', hinv', hothers', -⟩ := hinv.asFreePage has hv fun f hf => by
    obtain ⟨e, hleaf, rfl⟩ := map_eq_some_iff.mp hf
    rw [← pteCount_eq_mapCount hinv.toPaging hlive]
    exact hsole e (by rw [Mapped.presentPte_eq hinv.toPaging has hv, hleaf])
  exact ⟨A', L', V, hinv', hlive, hothers'.trans hoth⟩

theorem destroy (hsafe : h.FileSafe (.destroy as))
    (hstep : h.perform (.destroy as) = some (ok, h')) : h'.FileTracks := by
  obtain ⟨-, -, hsole⟩ := hsafe
  obtain ⟨has, ⟨⟩⟩ := ite_eq_some hstep
  rw [← hlive] at has
  obtain ⟨A', L', V', hinv', hlive', hothers'⟩ := hinv.asDestroy has fun v f hf => by
    obtain ⟨e, hleaf, rfl⟩ := map_eq_some_iff.mp hf
    have hv : pageOf (v * pageSize) < userPages := by
      rw [pageOf_mul]
      exact (hinv.leaf_key hleaf).2
    rw [← pteCount_eq_mapCount hinv.toPaging hlive]
    refine hsole v (hinv.leaf_key hleaf).2 e ?_
    rw [Mapped.presentPte_eq hinv.toPaging has hv, pageOf_mul, hleaf]
  refine ⟨A', L', V', hinv', ?_, hothers'.trans hoth⟩
  rw [hlive', hlive]

theorem cacheInvalidate (hsafe : h.FileSafe (.cacheInvalidate file))
    (hstep : h.perform (.cacheInvalidate file) = some (ok, h')) : h'.FileTracks := by
  obtain ⟨-, -, hfree⟩ := hsafe
  cases hstep
  obtain ⟨A', L', hinv', hothers'⟩ := hinv.pageCacheInvalidate fun i e he hfile hcnt => by
    rw [← pteCount_eq_mapCount hinv.toPaging hlive]
    exact hfree i e he hfile hcnt
  exact ⟨A', L', V, hinv', hlive, hothers'.trans hoth⟩

/-- Others allocate and free. -/
theorem others_step (hcall : call.ofOthers = true)
    (hstep : h.perform call = some (ok, h')) : h'.FileTracks := by
  obtain ⟨m, A', others, rfl, hmach, hacc⟩ :=
    perform_others hinv.accounts hinv.total hoth hcall hstep
  exact ⟨A', _, V, hinv.others_move hmach hacc, hlive, rfl⟩

end

/-- One safe call. -/
theorem step (ht : h.FileTracks) (hsafe : h.FileSafe call) (hstep : h.step call = some h') :
    h'.FileTracks := by
  obtain ⟨⟨ok, h1⟩, hperf, rfl⟩ := map_eq_some_iff.mp hstep
  obtain ⟨A, L, V, hinv, hlive, hoth⟩ := ht
  cases call with
  | create => exact create hinv hlive hoth hperf
  | setVmas as vmas =>
    obtain ⟨-, ⟨⟩⟩ := ite_eq_some hperf
    exact ⟨A, L, V, hinv.kept (hinv.toMapped.setVmas as vmas) (.refl _) hinv.one hinv.cached, hlive,
      hoth⟩
  | fault => exact fault hinv hlive hoth hsafe.2.1 hperf
  | clone => exact hsafe.1.elim
  | write => exact write hinv hlive hoth hsafe.2.1 hperf
  | freePage => exact freePage hinv hlive hoth hsafe hperf
  | destroy => exact destroy hinv hlive hoth hsafe hperf
  | cacheRef | cachePut | cacheMarkDirty | cacheSync =>
    obtain ⟨c, hkeys, rfl⟩ := perform_recache rfl hperf
    exact ⟨A, L, V, hinv.recache hkeys, hlive, hoth⟩
  | cacheInvalidate => exact cacheInvalidate hinv hlive hoth hsafe hperf
  | allocOther | freeOther => exact others_step hinv hlive hoth rfl hperf

theorem start (B : VmBoot) : B.start.FileTracks := ⟨_, _, _, .start B, rfl, rfl⟩

end VmHistory.FileTracks

/-- **No used frame is free.** As long as pages and cache entries are dropped only by the
last user of their frame, no frame on a free list is referred to by a cache entry or
mapped by a live address space. -/
theorem no_used_frame_is_free (B : VmBoot) {calls : List VmCall} {h : VmHistory}
    (hrun : GuardedRun VmHistory.step VmHistory.FileSafe B.start calls h) {f : Nat}
    (hfree : InFreeBlock h.state.pmm f) : ¬ Cached h.state f ∧ h.pteCount f = 0 := by
  obtain ⟨A, L, V, hinv, hlive, -⟩ := hrun.inv VmHistory.FileTracks
    (fun _ _ _ ht => ht.step) (.start B)
  have hunused : ¬ 0 < L.refs f := fun hf => hinv.accounts.counted_not_free hf hfree
  constructor
  · exact fun hcached => hunused (hinv.cached f hcached)
  by_contra hne
  rw [VmHistory.pteCount_eq_mapCount hinv.toPaging hlive] at hne
  obtain ⟨k, hk⟩ := hinv.mapCount_pos_iff.mp (pos_of_ne_zero hne)
  exact hunused (hinv.counted k f hk)

/-- The first page of file 1. -/
def filePage (addr : Nat) (flags : VmaFlags) : Region where
  start := addr
  stop := addr + pageSize
  flags := flags
  file := 1
  fileOffset := 0

/-- Two processes map a page of a file, one of them writes to it, and a frame is taken and freed. -/
def twoMappings : List VmCall :=
  [.create (some 1) (some [filePage 0x400000 { read := true, write := true }]),
    .create (some 2) (some [filePage 0x500000 { read := true }]),
    .fault 1 0x400000 (some fun _ => 3) true, .fault 2 0x500000 none true,
    .write 1 0x400000 fun _ => 4, .cacheMarkDirty 1 0, .cacheSync 1 fun _ => true, .cachePut 1 0,
    .allocOther 0, .freeOther ⟨0x409, 0⟩]

/-- Calls that drop no page or entry are safe. -/
def VmCall.dropsNone : VmCall → Bool
  | .clone .. | .freePage .. | .destroy .. | .cacheInvalidate .. => false
  | _ => true

theorem VmHistory.fileSafe_of_dropsNone (h : VmHistory) (call : VmCall)
    (hcheck : (decide call.UserHalf && call.dropsNone) = true) : h.FileSafe call := by
  rw [Bool.and_eq_true, decide_eq_true_eq] at hcheck
  obtain ⟨huser, hfrees⟩ := hcheck
  cases call with
  | clone | freePage | destroy | cacheInvalidate => cases hfrees
  | create | setVmas | fault | write | cacheRef | cachePut | cacheMarkDirty | cacheSync
  | allocOther | freeOther => exact ⟨trivial, huser, trivial⟩

theorem no_used_frame_is_free_twoMappings :
    ∃ h, GuardedRun VmHistory.step VmHistory.FileSafe smallVmBoot.start twoMappings h ∧
      InFreeBlock h.state.pmm 0x409 ∧ ¬ Cached h.state 0x409 ∧ h.pteCount 0x409 = 0 := by
  obtain ⟨h, hrun, hhead, horder⟩ : ∃ h, run (fun h call =>
      if decide call.UserHalf && call.dropsNone then VmHistory.step h call else none)
      smallVmBoot.start twoMappings = some h ∧ h.state.pmm.zone.freeLists 0 = some 0x409 ∧
        (h.state.pmm.pages 0x409).order = 0 := by decide +kernel
  have hguarded := GuardedRun.of_checked VmHistory.fileSafe_of_dropsNone hrun
  have hfree : InFreeBlock h.state.pmm 0x409 :=
    ⟨0, ⟨0x409, 0⟩, ⟨by decide, .head hhead, horder.symm⟩, by simp [Block.size]⟩
  exact ⟨h, hguarded, hfree, no_used_frame_is_free smallVmBoot hguarded hfree⟩

/-- A process maps a page of a file and unmaps it. -/
def unmapFile : List VmCall :=
  [.create (some 1) (some [filePage 0x400000 { read := true }]),
    .fault 1 0x400000 (some fun _ => 3) true, .freePage 1 0x400000]

/-- The page was mapped with the one reference that the cache entry stands for, and
unmapping it drops that: the frame is free and still in the cache. -/
theorem unmapFile_frees_cached : (∀ call ∈ unmapFile, call.OnFiles ∧ call.UserHalf) ∧
      ∃ h, run VmHistory.step smallVmBoot.start unmapFile = some h ∧
        InFreeBlock h.state.pmm 0x401 ∧ Cached h.state 0x401 := by
  obtain ⟨h, hrun, hhead, horder, hcache⟩ : ∃ h,
      run VmHistory.step smallVmBoot.start unmapFile = some h ∧
        h.state.pmm.zone.freeLists 0 = some 0x401 ∧ (h.state.pmm.pages 0x401).order = 0 ∧
        h.state.cache (pageCacheHashFn 1 0) = [⟨1, 0, 0x401, false, 1⟩] := by decide +kernel
  refine ⟨fun call hcall => ?_, h, hrun, ?_, ?_⟩
  · simp only [unmapFile, List.mem_cons, not_mem_nil, or_false] at hcall
    rcases hcall with rfl | rfl | rfl
    all_goals exact ⟨trivial, by simp [VmCall.UserHalf]⟩
  · exact ⟨0, ⟨0x401, 0⟩, ⟨by decide, .head hhead, horder.symm⟩, by simp [Block.size]⟩
  · exact ⟨_, _, hcache ▸ List.mem_singleton_self _, rfl⟩

end Kurios.Vm
