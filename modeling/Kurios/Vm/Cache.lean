import Kurios.Vm.Run

/-!
File pages.

What the rest of the development needs to know of the page cache is which frame it
holds for which page of a file. `key` is that part of an entry; most calls only touch
the counter or the dirty bit and keep all keys (`SameKeys`), `page_cache_get` may add
one (`Inserted`). Calls of `page_cache_get` that run side by side, one section between
two releases of the lock at a time, are `Getting`.

A demand fault in a file mapping runs in two phases. `GotPage` says what
`page_cache_get` did, and `Placed` what mapping its frame did.
-/

namespace Kurios.Vm

open Base Pmm Function Option List

variable {file offset frame g : Nat} {f : CacheEntry → CacheEntry} {allocated : Bool}

/-- The file page an entry is for, and its frame. -/
def CacheEntry.key (e : CacheEntry) : Nat × Nat × Nat := (e.file, e.offset, e.frame)

/-- The entries are for the same pages and have the same frames. -/
def SameKeys (c c' : Nat → List CacheEntry) : Prop :=
  ∀ i, (c' i).map CacheEntry.key = (c i).map CacheEntry.key

/-- A page-cache entry refers to the frame. -/
def Cached (s : VmState) (f : Nat) : Prop := ∃ i, ∃ e ∈ s.cache i, e.frame = f

/-- The frame of the cached page of a file. -/
def cacheFrame (s : VmState) (file offset : Nat) : Option Nat :=
  (findEntry s file offset).map CacheEntry.frame

/-- One entry was added, at the front of its hash chain. -/
def Inserted (file offset f : Nat) (c c' : Nat → List CacheEntry) : Prop :=
  ∃ e : CacheEntry, e.key = (file, pageOffset offset, f) ∧
    c' = update c (pageCacheHashFn file (pageOffset offset))
      (e :: c (pageCacheHashFn file (pageOffset offset)))

/-! ### Keys -/

theorem map_modify_of_keeps {α β : Type*} {f : α → α} {g : α → β} (h : ∀ a, g (f a) = g a)
    (xs : List α) (i : Nat) : (xs.modify i f).map g = xs.map g := by
  induction xs generalizing i with
  | nil => simp
  | cons x xs ih =>
    cases i with
    | zero => simp [h]
    | succ i => simp [ih]

namespace SameKeys

variable {c c' c'' : Nat → List CacheEntry} {s s' : VmState}

theorem refl (c : Nat → List CacheEntry) : SameKeys c c := fun _ => rfl

theorem of_eq (h : s'.cache = s.cache) : SameKeys s.cache s'.cache := h ▸ .refl _

theorem modifyEntry (s : VmState) (file offset : Nat) (hf : ∀ e, (f e).key = e.key) :
    SameKeys s.cache (Vm.modifyEntry s file offset f).cache := by
  intro i
  by_cases hi : i = pageCacheHashFn file (pageOffset offset)
  · subst hi
    simp only [Vm.modifyEntry, VmState.setChain, update_self]
    exact map_modify_of_keeps hf _ _
  · simp [Vm.modifyEntry, VmState.setChain, update_of_ne hi]

/-- A change of the counter or the dirty bit of one entry. -/
theorem entry (s : VmState) (file offset : Nat) (hf : ∀ e, (f e).key = e.key) :
    SameKeys s.cache (if file = 0 then s else Vm.modifyEntry s file offset f).cache := by
  split
  · exact .refl _
  · exact .modifyEntry s file offset hf

theorem put (s : VmState) (file offset : Nat) :
    SameKeys s.cache (pageCachePut s file offset).cache :=
  .entry s file offset fun _ => rfl

theorem sync (s : VmState) (file : Nat) (written : CacheEntry → Bool) :
    SameKeys s.cache (pageCacheSync s file written).cache := by
  intro i
  simp only [pageCacheSync]
  split
  · rw [List.map_map]
    refine map_congr_left fun e _ => ?_
    simp only [comp_apply]
    split <;> rfl
  · rfl

/-- The same keys are on a chain. -/
theorem exists_mem (h : SameKeys c c') {i e'} (he : e' ∈ c' i) : ∃ e ∈ c i, e.key = e'.key := by
  have hmem : e'.key ∈ (c' i).map CacheEntry.key := mem_map_of_mem he
  rw [h i] at hmem
  exact mem_map.mp hmem

theorem cached (h : SameKeys s.cache s'.cache) {f} (hf : Cached s' f) : Cached s f := by
  obtain ⟨i, e', he', rfl⟩ := hf
  obtain ⟨e, he, hkey⟩ := h.exists_mem he'
  exact ⟨i, e, he, congrArg (fun k => k.2.2) hkey⟩

theorem find_frame (file offset : Nat) (chain : List CacheEntry) :
    (chain.find? (·.isFor file offset)).map CacheEntry.frame =
      ((chain.map CacheEntry.key).find? fun k => k.1 == file && k.2.1 == offset).map
        fun k => k.2.2 := by
  rw [find?_map, Option.map_map]
  rfl

theorem cacheFrame (h : SameKeys s.cache s'.cache) (file offset : Nat) :
    Vm.cacheFrame s' file offset = Vm.cacheFrame s file offset := by
  simp only [Vm.cacheFrame, findEntry, find_frame]
  rw [h]

end SameKeys

/-- A frame found by a lookup is in the cache. -/
theorem cached_of_cacheFrame {s f} (h : cacheFrame s file offset = some f) : Cached s f := by
  obtain ⟨e, hfind, hf⟩ := map_eq_some_iff.mp h
  exact ⟨_, e, mem_of_find?_eq_some hfind, hf⟩

namespace Inserted

variable {s s' : VmState} {file offset f : Nat}

section

variable (h : Inserted file offset f s.cache s'.cache)
include h

theorem cached (hg : Cached s' g) : g = f ∨ Cached s g := by
  obtain ⟨e, hkey, hcache⟩ := h
  obtain ⟨i, e', he', rfl⟩ := hg
  rw [hcache] at he'
  by_cases hi : i = pageCacheHashFn file (pageOffset offset)
  · subst hi
    rw [update_self] at he'
    rcases mem_cons.mp he' with rfl | he'
    · exact .inl (congrArg (fun k => k.2.2) hkey)
    · exact .inr ⟨_, e', he', rfl⟩
  · rw [update_of_ne hi] at he'
    exact .inr ⟨i, e', he', rfl⟩

/-- The new entry is found. -/
theorem cacheFrame_self : cacheFrame s' file offset = some f := by
  obtain ⟨e, hkey, hcache⟩ := h
  obtain ⟨rfl, hoffset, rfl⟩ : e.file = file ∧ e.offset = pageOffset offset ∧ e.frame = f := by
    simpa [CacheEntry.key] using hkey
  simp [cacheFrame, findEntry, hcache, CacheEntry.isFor, hoffset]

/-- What was found before is found again. -/
theorem cacheFrame_of_some (hnone : cacheFrame s file offset = none) {file' offset'}
    (hg : cacheFrame s file' offset' = some g) : cacheFrame s' file' offset' = some g := by
  obtain ⟨e, hkey, hcache⟩ := h
  obtain ⟨rfl, hoffset, rfl⟩ : e.file = file ∧ e.offset = pageOffset offset ∧ e.frame = f := by
    simpa [CacheEntry.key] using hkey
  by_cases hsame : e.file = file' ∧ pageOffset offset = pageOffset offset'
  · obtain ⟨rfl, hoff⟩ := hsame
    have heq : cacheFrame s e.file offset = cacheFrame s e.file offset' := by
      simp [cacheFrame, findEntry, hoff]
    rw [heq, hg] at hnone
    cases hnone
  have hnot : e.isFor file' (pageOffset offset') = false := by
    simpa [CacheEntry.isFor, hoffset] using hsame
  by_cases hhash : pageCacheHashFn file' (pageOffset offset') =
      pageCacheHashFn e.file (pageOffset offset)
  · simp only [cacheFrame, findEntry, hcache, hhash, update_self] at hg ⊢
    rw [find?_cons_of_neg (by simpa using hnot)]
    exact hg
  · simp only [cacheFrame, findEntry, hcache, update_of_ne hhash]
    exact hg

end

end Inserted

/-! ### Demand faults in file mappings -/

/-- What `page_cache_get` did. No page changed. The frame was in the cache, or it is
new, filled, and in the cache unless there was no memory for the entry. -/
structure GotPage (file offset : Nat) (allocated : Bool) (frame : Option Nat) (s : VmState)
    (A : Arena) (L : Ledger) (V : View) (s' : VmState) (A' : Arena) (L' : Ledger) : Prop where
  mapped : Mapped s' A' L' V
  leaf : leaf s' V = leaf s V
  machine : SameMachine s.pmm A s'.pmm A'
  others : L'.others = L.others
  spaces : s'.spaces = s.spaces
  data : ∀ f, 0 < L.refs f → s'.mem f = s.mem f
  how : (L'.refs = L.refs ∧ SameKeys s.cache s'.cache ∧
      ∀ f ∈ frame, cacheFrame s file offset = some f) ∨
    ∃ f, frame = some f ∧ L.refs f = 0 ∧ L'.refs = update L.refs f 1 ∧
      cacheFrame s file offset = none ∧
      (allocated = false ∧ SameKeys s.cache s'.cache ∨ Inserted file offset f s.cache s'.cache)

namespace Mapped

variable {s s' : VmState} {A A' : Arena} {L L' : Ledger} {V V' : View} {a f : Nat}

/-- The page tables do not depend on the page cache. -/
theorem recache (h : Mapped s A L V) (c : Nat → List CacheEntry) :
    Mapped { s with cache := c } A L V := by
  have hwrite : Mapped { s with cache := c } A L V ∧ leaf { s with cache := c } V = leaf s V :=
    h.write rfl rfl fun _ _ => rfl
  exact hwrite.1

theorem pageCacheRef_eq (s : VmState) (file offset : Nat) :
    pageCacheRef s file offset = { s with cache := (pageCacheRef s file offset).cache } := by
  unfold pageCacheRef
  split
  · rfl
  · rfl

theorem pageOffset_idem (offset : Nat) : pageOffset (pageOffset offset) = pageOffset offset := by
  simp only [pageOffset, alignDown_pageSize]
  rw [Nat.mul_div_cancel _ (by decide)]

/-- A page that is not in the cache is inserted, unless there is no memory for it. -/
theorem pageCacheInsert_spec (s : VmState) (allocated : Bool) (hfile : file ≠ 0)
    (hframe : frame ≠ 0) (hnone : cacheFrame s file offset = none) :
    ∃ c, (pageCacheInsert s file offset frame allocated).2 = { s with cache := c } ∧
      (allocated = false ∧ SameKeys s.cache c ∨ Inserted file offset frame s.cache c) := by
  have hfind : findEntry s file (pageOffset offset) = none := by
    have := map_eq_none_iff.mp hnone
    rwa [findEntry, pageOffset_idem]
  cases allocated with
  | false =>
    refine ⟨s.cache, ?_, .inl ⟨rfl, .refl _⟩⟩
    simp [pageCacheInsert, hfile, hframe, hfind]
  | true =>
    refine ⟨_, ?_, .inr ⟨⟨file, pageOffset offset, frame, false, 1⟩, rfl, rfl⟩⟩
    simp [pageCacheInsert, hfile, hframe, hfind, VmState.setChain]

theorem pageCacheLookup_pageOffset (hfile : file ≠ 0) :
    pageCacheLookup s file (pageOffset offset) = cacheFrame s file offset := by
  rw [pageCacheLookup, if_neg hfile, cacheFrame, findEntry, findEntry, pageOffset_idem]

/-- After an insertion, the page that was not in the cache is. -/
theorem cacheFrame_pageCacheInsert (hargs : file ≠ 0 ∧ frame ≠ 0)
    (hnone : cacheFrame s file offset = none) :
    cacheFrame (pageCacheInsert s file (pageOffset offset) frame true).2 file offset =
      some frame := by
  have hoffset := pageOffset_idem offset
  have hfind : findEntry s file (pageOffset offset) = none := by
    rw [findEntry, hoffset]
    exact map_eq_none_iff.mp hnone
  simp only [pageCacheInsert, hargs, hoffset, hfind]
  simp [cacheFrame, findEntry, VmState.setChain, CacheEntry.isFor]

theorem pageCacheGet (h : Mapped s A L V) (offset : Nat) (data : Option (Nat → Word))
    (allocated : Bool) (hfile : file ≠ 0) :
    ∃ frame s' A' L', Vm.pageCacheGet s file offset data allocated = (frame, s') ∧
      SameUpper A.frames V.live s s' ∧ GotPage file offset allocated frame s A L V s' A' L' := by
  have hself : ∀ frame, (∀ f ∈ frame, cacheFrame s file offset = some f) →
      GotPage file offset allocated frame s A L V s A L := fun frame hframe =>
    ⟨h, rfl, .refl _ _, rfl, rfl, fun _ _ => rfl, .inl ⟨rfl, .refl _, hframe⟩⟩
  unfold Vm.pageCacheGet
  rw [if_neg hfile]
  simp only [pageCacheLookup_pageOffset hfile]
  cases hhit : cacheFrame s file offset with
  | some f =>
    refine ⟨some f, _, A, L, rfl, ?_⟩
    rw [pageCacheRef_eq]
    refine ⟨.of_mem rfl rfl rfl, h.recache _, rfl, .refl _ _, rfl, rfl, fun _ _ => rfl, .inl ⟨rfl,
      .entry _ _ _ fun _ => rfl, ?_⟩⟩
    rintro g ⟨⟩
    exact hhit
  | none =>
    obtain heq | ⟨f, m, A1, heq, hfresh, hwindow, halloc⟩ := h.allocFrame
    · refine ⟨none, s, A, L, ?_, .refl s, hself none (by simp)⟩
      simp [heq]
    simp only [heq]
    cases data with
    | none =>
      have hone : 0 < (L.setRefs f 1).refs f := by
        rw [setRefs_self]
        exact one_pos
      obtain ⟨A2, hback⟩ := halloc.mapped.freeFrame hone fun k hk =>
        (h.counted k f hk).ne' hfresh.2.1
      refine ⟨none, _, A2, _, rfl, .of_mem rfl rfl rfl, hback.mapped, rfl,
        halloc.machine.trans hback.machine, rfl, rfl, fun _ _ => rfl, .inl ⟨?_, .refl _, by simp⟩⟩
      funext q
      by_cases hq : q = f
      · rw [hq, setRefs_self, hfresh.2.1]
      · rw [setRefs_of_ne _ hq, setRefs_of_ne _ hq]
    | some words =>
      obtain ⟨s1, hs1, hfill, hleaf, -, hupper⟩ := fillFresh halloc hfresh.2.1 words
      have hpos : f ≠ 0 := by
        rintro rfl
        exact absurd hwindow.1 (by decide)
      have hnone : cacheFrame s1 file (pageOffset offset) = none := by
        simp only [cacheFrame, findEntry, pageOffset_idem, hfill.cache]
        exact hhit
      obtain ⟨c, hinsert, hc⟩ := pageCacheInsert_spec _ allocated hfile hpos hnone
      refine ⟨some f, _, A1, L.setRefs f 1, rfl, ?_⟩
      rw [hs1, hinsert]
      refine ⟨hupper.trans (.of_mem rfl rfl rfl), hfill.mapped.recache c, hleaf, hfill.machine, rfl,
        hfill.spaces, hfill.data, .inr ⟨f, rfl, hfresh.2.1, rfl, hhit, ?_⟩⟩
      simp only [Inserted, pageOffset_idem, hfill.cache] at hc
      exact hc

/-- The frame `page_cache_get` returns is counted. -/
theorem GotPage.counted (hgot : GotPage file offset allocated (some f) s A L V s' A' L')
    (hcach : ∀ g, Cached s g → 0 < L.refs g) : 0 < L'.refs f := by
  obtain ⟨hrefs, -, hhit⟩ | ⟨g, hg, -, hrefs, -, -⟩ := hgot.how
  · rw [hrefs]
    exact hcach f (cached_of_cacheFrame (hhit f rfl))
  · cases hg
    rw [hrefs, update_self]
    exact one_pos

/-- A demand fault in a file mapping. If the frame cannot be mapped, the entry's counter
is put back. -/
theorem faultFile (h : Mapped s A L V) {virt} (ha : a ∈ V.live) (hv : pageOf virt < userPages)
    (hcach : ∀ g, Cached s g → 0 < L.refs g) {r} (hr : r.fileBacked = true)
    (data : Option (Nat → Word)) (allocated : Bool) :
    ∃ frame s1 A1 L1, GotPage r.file (r.pageFileOffset virt) allocated frame s A L V s1 A1 L1 ∧
      ∃ ok s2 A2 L2 V2 c,
        Placed (a, pageOf virt) (if ok then frame.map (mapEntry · r.allFlags) else none)
          s1 A1 L1 V s2 A2 L2 V2 ∧
        SameUpper A.frames V.live s s2 ∧ SameKeys s2.cache c ∧
        Vm.faultFile s a virt r data allocated = (ok, { s2 with cache := c }) := by
  obtain ⟨frame, s1, A1, L1, heq, hupper, hgot⟩ :=
    h.pageCacheGet (r.pageFileOffset virt) data allocated (Region.file_ne_zero hr)
  refine ⟨frame, s1, A1, L1, hgot, ?_⟩
  unfold Vm.faultFile
  rw [heq]
  cases frame with
  | none =>
    have hu := hgot.mapped.unchanged
    exact ⟨false, s1, A1, L1, V, s1.cache, ⟨hu.toKept, hu.leaf, hu.refs⟩, hupper, .refl _, rfl⟩
  | some f =>
    obtain ⟨ok, s2, A2, L2, V2, hmap, hupper2, -, hpl⟩ :=
      hgot.mapped.placed ha hv (GotPage.counted hgot hcach) r.allFlags
    rw [hgot.machine.frames] at hupper2
    have hupper := hupper.trans hupper2
    cases ok with
    | true =>
      refine ⟨true, s2, A2, L2, V2, s2.cache, hpl, hupper, .refl _, ?_⟩
      simp [hmap]
    | false =>
      refine ⟨false, s2, A2, L2, V2, _, hpl, hupper, .put s2 r.file (r.pageFileOffset virt), ?_⟩
      simp only [hmap, pageCachePut]
      split <;> rfl

end Mapped

/-! ### Calls of `page_cache_get` side by side -/

/-- How far a call of `page_cache_get` is: what it does next, or what it returned. -/
inductive GetPhase
  | lookup
  | ref (frame : Nat)
  | read
  | insert (frame : Nat)
  | returned (frame : Option Nat)
  deriving DecidableEq

/-- A frame the call found or returned. -/
def GetPhase.Has (frame : Nat) (p : GetPhase) : Prop := p = .ref frame ∨ p = .returned (some frame)

/-- The calls for one page of a file, and the machine they share. -/
structure Getting where
  vm : VmState
  phase : Nat → GetPhase

/-- A call goes on; `data` and `allocated` are what `pageCacheGet` takes. -/
structure GetStep where
  call : Nat
  data : Option (Nat → Word)
  allocated : Bool

section

variable (file offset : Nat)

/-- `page_cache_get` from one release of the lock to the next. -/
def getSection (e : GetStep) (s : VmState) : GetPhase → GetPhase × VmState
  | .lookup =>
    if file = 0 then (.returned none, s) else
    match pageCacheLookup s file (pageOffset offset) with
    | some frame => (.ref frame, s)
    | none => (.read, s)
  | .ref frame => (.returned frame, pageCacheRef s file (pageOffset offset))
  | .read =>
    match allocFrame s, e.data with
    | (none, s), _ => (.returned none, s)
    | (some frame, s), none => (.returned none, freeFrame s frame)
    | (some frame, s), some words => (.insert frame, s.fillFrame frame words)
  | .insert frame =>
    (.returned frame, (pageCacheInsert s file (pageOffset offset) frame e.allocated).2)
  | .returned frame => (.returned frame, s)

namespace Getting

def start (vm : VmState) : Getting := ⟨vm, fun _ => .lookup⟩

def step (g : Getting) (e : GetStep) : Option Getting :=
  let (p, s) := getSection file offset e g.vm (g.phase e.call)
  some ⟨s, update g.phase e.call p⟩

/-- If the call inserts its frame now, the page is not in the cache and there is memory for an
entry. -/
def inserts (g : Getting) (e : GetStep) : Bool :=
  match g.phase e.call with
  | .insert frame =>
    decide ((file ≠ 0 ∧ frame ≠ 0) ∧ cacheFrame g.vm file offset = none ∧ e.allocated = true)
  | _ => true

/-- The frames that calls found or returned are the one in the cache. -/
def Agree (g : Getting) : Prop :=
  ∀ i f, (g.phase i).Has f → cacheFrame g.vm file offset = some f

end Getting

end

theorem Getting.Agree.step {g g' : Getting} {e : GetStep} (h : g.Agree file offset)
    (hinserts : g.inserts file offset e = true) (hstep : g.step file offset e = some g') :
    g'.Agree file offset := by
  rcases hsec : getSection file offset e g.vm (g.phase e.call) with ⟨p, s⟩
  rw [Getting.step, hsec] at hstep
  cases hstep
  -- The cache keeps what calls rely on, and the call that moves relies on what is there.
  suffices (∀ f, cacheFrame g.vm file offset = some f → cacheFrame s file offset = some f) ∧
      ∀ f, p.Has f → cacheFrame s file offset = some f by
    intro i f hi
    by_cases hcall : i = e.call
    · subst hcall
      exact this.2 f (by simpa using hi)
    · exact this.1 f (h i f (by simpa [hcall] using hi))
  have hself := h e.call
  unfold inserts at hinserts
  generalize g.phase e.call = q at hsec hinserts hself
  simp only [GetPhase.Has]
  cases q with
  | lookup =>
    rw [getSection] at hsec
    by_cases hfile : file = 0
    · rw [if_pos hfile] at hsec
      cases hsec
      simp
    rw [if_neg hfile, Mapped.pageCacheLookup_pageOffset hfile] at hsec
    split at hsec
    case h_1 f hhit =>
      cases hsec
      simpa using hhit
    case h_2 =>
      cases hsec
      simp
  | ref frame =>
    cases hsec
    have hsame : cacheFrame (pageCacheRef g.vm file (pageOffset offset)) file offset =
        cacheFrame g.vm file offset := by
      refine SameKeys.cacheFrame ?_ file offset
      exact .entry g.vm file _ fun _ => rfl
    simpa [hsame] using hself frame (.inl rfl)
  | read =>
    have hcache : s.cache = g.vm.cache ∧ ∀ f, ¬ (p = .ref f ∨ p = .returned (some f)) := by
      have halloc : (allocFrame g.vm).2.cache = g.vm.cache := rfl
      rw [getSection] at hsec
      rcases hallocated : allocFrame g.vm with ⟨_ | f, s1⟩
      all_goals
        cases hdata : e.data
        all_goals
          rw [hallocated, hdata] at hsec
          rw [hallocated] at halloc
          cases hsec
          exact ⟨halloc, by simp⟩
    simp only [cacheFrame, findEntry, hcache.1]
    exact ⟨fun _ => id, fun f hf => absurd hf (hcache.2 f)⟩
  | insert frame =>
    cases hsec
    obtain ⟨hargs, hnone, hallocated⟩ := of_decide_eq_true hinserts
    rw [hallocated, hnone]
    simpa using Mapped.cacheFrame_pageCacheInsert hargs hnone
  | returned frame =>
    cases hsec
    exact ⟨fun _ => id, hself⟩

/-- As long as no insertion fails, every call that returns a frame returns the one in
the cache. -/
theorem page_cache_get_coherent {file offset : Nat} {vm : VmState} {steps : List GetStep}
    {g : Getting} (hrun : GuardedRun (Getting.step file offset)
      (fun g e => g.inserts file offset e = true) (.start vm) steps g) :
    ∀ i f, g.phase i = .returned (some f) → cacheFrame g.vm file offset = some f ∧
      ∀ j f', g.phase j = .returned (some f') → f' = f := by
  have hagree : g.Agree file offset := by
    refine hrun.inv (Getting.Agree file offset) (fun _ _ _ h => h.step) ?_
    intro i f hi
    cases hi <;> contradiction
  intro i f hi
  have hcached := hagree i f (.inr hi)
  exact ⟨hcached, fun j f' hj => some.inj ((hagree j f' (.inr hj)).symm.trans hcached)⟩

/-- One call reads the page and the other finds it. -/
theorem page_cache_get_coherent_twice : ∃ g, GuardedRun (Getting.step 1 0)
      (fun g e => g.inserts 1 0 e = true) (.start smallVmBoot.start.state)
      ([0, 0, 0, 1, 1].map fun i => ⟨i, some fun _ => 3, true⟩) g ∧
    g.phase 1 = .returned (some 0x400) ∧ cacheFrame g.vm 1 0 = some 0x400 ∧
      ∀ j f', g.phase j = .returned (some f') → f' = 0x400 :=
  exists_and_of (by decide +kernel) fun _ hrun => page_cache_get_coherent hrun _ _

/-- Two calls miss. The second insertion fails, and its frame is returned all the same. -/
theorem page_cache_get_race : ∃ g, run (Getting.step 1 0) (.start smallVmBoot.start.state)
      ([0, 1, 0, 1, 0, 1].map fun i => ⟨i, some fun _ => 3, true⟩) = some g ∧
    g.phase 0 = .returned (some 0x400) ∧ g.phase 1 = .returned (some 0x401) ∧
      cacheFrame g.vm 1 0 = some 0x400 := by
  decide +kernel

end Kurios.Vm
