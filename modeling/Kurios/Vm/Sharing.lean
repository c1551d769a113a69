import Kurios.Vm.Files

/-!
Private file mappings, with `as_clone`.

A private writable file mapping starts with the frame of the page cache itself, marked
COW, and relies on `handle_cow_fault` to copy it. That function only copies when the
frame has more than one reference, and the cache entry does not count as one: the first
write goes to the page cache. `private_writes_keep_cache` is what remains, with the
condition that writes find more references.
-/

namespace Kurios.Vm

open Base Pmm Function Option Finset Bool

variable {c : Nat → List CacheEntry} {vmas : Option (List Region)} {src virt : Nat}
  {dst handle : Option Nat} {k : Nat × Nat} {e old : Word} {words : Nat → Word} {allocated : Bool}
  {s' s : VmState}

/-- File mappings in the presence of clones: a frame has at most one reference more than
there are pages that map it. -/
structure ForkInv (s : VmState) (A : Arena) (L : Ledger) (V : View) : Prop extends
    Mapped s A L V where
  cached : ∀ f, Cached s f → 0 < L.refs f
  bound : ∀ f, L.refs f ≤ mapCount s V f + 1

/-- The cache still has the frames it had. -/
def CacheGrows (s s' : VmState) : Prop :=
  ∀ file offset f, cacheFrame s file offset = some f → cacheFrame s' file offset = some f

theorem SameKeys.grows (h : SameKeys s.cache s'.cache) : CacheGrows s s' :=
  fun file offset _ => (h.cacheFrame file offset).trans

theorem CacheGrows.trans {s1 s2 s3} (h : CacheGrows s1 s2) (h' : CacheGrows s2 s3) :
    CacheGrows s1 s3 := fun file offset f hf => h' file offset f (h file offset f hf)

/-- What a demand fault at page `k` did. If it mapped a frame, then with the flags of the
area; the frame is that of the cache, unless the area is anonymous or the entry could
not be allocated. -/
structure Faulted (a virt : Nat) (allocated : Bool) (s : VmState) (A : Arena) (L : Ledger)
    (V : View) (s' : VmState) (A' : Arena) (L' : Ledger) (V' : View) : Prop where
  inv : ForkInv s' A' L' V'
  live : V'.live = V.live
  others : L'.others = L.others
  spaces : s'.spaces = s.spaces
  data : ∀ f, 0 < L.refs f → s'.mem f = s.mem f
  grows : CacheGrows s s'
  cachedOld : ∀ f, Cached s' f → 0 < L.refs f → Cached s f
  leaf : leaf s' V' = leaf s V ∨
    ∃ r f, regionAt s a virt = some r ∧ InWindow f ∧
      leaf s' V' = update (leaf s V) (a, pageOf virt) (some (mapEntry f r.allFlags)) ∧
      (r.fileBacked = true → allocated = true →
        cacheFrame s' r.file (r.pageFileOffset virt) = some f) ∧
      (r.fileBacked = false → ¬ Cached s' f)

namespace ForkInv

variable {s s' : VmState} {A A' : Arena} {L L' : Ledger} {V V' : View} {a f : Nat}

theorem window_of_counted (h : Mapped s A L V) (hf : 0 < L.refs f) : InWindow f :=
  h.window f (h.accounts.frame_range (h.accounts.counted_live hf)).1

theorem mapCount_congr (hleaf : leaf s' V' = leaf s V) (hlive : V'.live = V.live) (q : Nat) :
    mapCount s' V' q = mapCount s V q := by
  rw [mapCount, mapCount, frameAt_congr hleaf, View.keys, View.keys, hlive]

section

variable (h : ForkInv s A L V)
include h

/-- The references are as before. -/
theorem same_refs (hmap : Mapped s' A' L' V') (hkeys : SameKeys s.cache s'.cache)
    (hrefs : L'.refs = L.refs) (hcnt : ∀ q, mapCount s V q ≤ mapCount s' V' q) :
    ForkInv s' A' L' V' where
  toMapped := hmap
  cached q hq := by
    rw [hrefs]
    exact h.cached q (hkeys.cached hq)
  bound q := by
    have hbound := h.bound q
    have hle := hcnt q
    rw [hrefs]
    omega

/-- A frame got its first reference. -/
theorem new_ref (hmap : Mapped s' A' L' V') (hrefs : L'.refs = update L.refs f 1)
    (hcach : ∀ q, Cached s' q → q = f ∨ Cached s q)
    (hcnt : ∀ q, mapCount s V q ≤ mapCount s' V' q) : ForkInv s' A' L' V' where
  toMapped := hmap
  cached q hq := by
    rw [hrefs]
    exact update_one_pos ((hcach q hq).imp_right (h.cached q))
  bound q := by
    have hbound := h.bound q
    have hle := hcnt q
    rw [hrefs]
    by_cases hq : q = f
    · rw [hq, update_self]
      omega
    · rw [update_of_ne hq]
      omega

theorem recache (hkeys : SameKeys s.cache c) : ForkInv { s with cache := c } A L V where
  toMapped := h.toMapped.recache c
  cached q hq := h.cached q (SameKeys.cached hkeys hq)
  bound := h.bound

theorem others_move {m others} (hmach : SameMachine s.pmm A m A')
    (hacc : Accounts m A' { L with others := others }) :
    ForkInv { s with pmm := m } A' { L with others := others } V where
  toMapped := h.toMapped.move hmach hacc h.counted
  __ := h

theorem created (ha : a ∉ V.live) (hc : Created a vmas s A L V s' A' L' V') : ForkInv s' A' L' V' :=
  h.same_refs (h.toMapped.created hc) (.of_eq hc.cache) hc.refs fun q =>
    (mapCount_created h.toPaging ha hc q).ge

theorem forked (hf : Forked src dst vmas s A L V s' A' L' V') : ForkInv s' A' L' V' where
  toMapped := hf.mapped
  cached q hq := by
    have hpos := h.cached q ((SameKeys.of_eq hf.cache).cached hq)
    rw [hf.refs]
    omega
  bound q := by
    have := h.bound q
    rw [hf.refs, mapCount_forked hf]
    omega

/-- A page of an anonymous area was made. -/
theorem freshPage {flags} (ha : a ∈ V.live) (hv : pageOf virt < userPages)
    (hnone : leaf s V (a, pageOf virt) = none)
    (hp : FreshPage (a, pageOf virt) f flags words s A L V s' A' L' V') : ForkInv s' A' L' V' := by
  refine h.new_ref hp.mapped hp.refs (fun q hq => .inr ((SameKeys.of_eq hp.cache).cached hq))
    fun q => ?_
  have hkey : (a, pageOf virt) ∈ V.keys := mem_product.mpr ⟨ha, mem_range.mpr hv⟩
  rw [mapCount_mapped hkey hp.live hnone hp.leaf]
  omega

theorem gotPage {file offset frame}
    (hg : GotPage file offset allocated frame s A L V s' A' L') : ForkInv s' A' L' V := by
  have hcnt := fun q => (mapCount_congr hg.leaf (rfl : V.live = V.live) q).ge
  obtain ⟨hrefs, hkeys, -⟩ | ⟨f, rfl, -, hrefs, -, hcache⟩ := hg.how
  · exact h.same_refs hg.mapped hkeys hrefs hcnt
  refine h.new_ref hg.mapped hrefs (fun q hq => ?_) hcnt
  rcases hcache with ⟨-, hkeys⟩ | hins
  · exact .inr (hkeys.cached hq)
  · exact hins.cached hq

section

variable (hnone : leaf s V (a, pageOf virt) = none)
include hnone

section

variable (ha : a ∈ V.live) (hv : pageOf virt < userPages)
include ha hv

theorem placed {entry} (hp : Placed (a, pageOf virt) entry s A L V s' A' L' V') :
    ForkInv s' A' L' V' := by
  refine h.same_refs hp.mapped (.of_eq hp.cache) hp.refs fun q => ?_
  have hleaf := hp.leaf
  cases entry with
  | none => exact (mapCount_congr hleaf hp.live q).ge
  | some e =>
    have hkey : (a, pageOf virt) ∈ V.keys := mem_product.mpr ⟨ha, mem_range.mpr hv⟩
    rw [mapCount_mapped hkey hp.live hnone hleaf]
    omega

/-- A demand fault in a file mapping. -/
theorem faultFile {r} (hreg : regionAt s a virt = some r) (hr : r.fileBacked = true)
    (data : Option (Nat → Word)) (allocated : Bool) :
    ∃ ok s' A' L' V', Vm.faultFile s a virt r data allocated = (ok, s') ∧
      Faulted a virt allocated s A L V s' A' L' V' := by
  obtain ⟨frame, s1, A1, L1, hgot, ok, s2, A2, L2, V2, c, hpl, -, hkeys, hres⟩ :=
    h.toMapped.faultFile ha hv h.cached hr data allocated
  have hinv := h.gotPage hgot
  have hnone1 : leaf s1 V (a, pageOf virt) = none := by
    rw [hgot.leaf]
    exact hnone
  -- The cache after the fault has the keys it got from `page_cache_get`.
  have hkeys1 : SameKeys s1.cache ({ s2 with cache := c } : VmState).cache := by
    rw [← hpl.cache]
    exact hkeys
  have hgrows1 := hkeys1.grows
  have hpos : ∀ q, 0 < L.refs q → 0 < L1.refs q := by
    intro q hq
    obtain ⟨hrefs, -⟩ | ⟨f, -, -, hrefs, -⟩ := hgot.how <;> rw [hrefs]
    · exact hq
    · exact update_one_pos (.inr hq)
  refine ⟨ok, _, A2, L2, V2, hres, (hinv.placed hnone1 ha hv hpl).recache hkeys,
    hpl.live, hpl.others.trans hgot.others, hpl.spaces.trans hgot.spaces,
    fun q hq => (hpl.data q (hpos q hq)).trans (hgot.data q hq), ?_, fun q hq hcnt => ?_, ?_⟩
  · obtain ⟨-, hkeys0, -⟩ | ⟨f, -, -, -, hmiss, ⟨-, hkeys0⟩ | hins⟩ := hgot.how
    · exact hkeys0.grows.trans hgrows1
    · exact hkeys0.grows.trans hgrows1
    · exact CacheGrows.trans (fun file offset q => hins.cacheFrame_of_some hmiss) hgrows1
  · have hq1 : Cached s1 q := hkeys1.cached hq
    obtain ⟨-, hkeys0, -⟩ | ⟨f, -, hzero, -, -, ⟨-, hkeys0⟩ | hins⟩ := hgot.how
    · exact hkeys0.cached hq1
    · exact hkeys0.cached hq1
    · rcases hins.cached hq1 with rfl | hold
      · exact absurd hzero hcnt.ne'
      · exact hold
  have hleaf := hpl.leaf
  cases ok with
  | false => exact .inl (hleaf.trans hgot.leaf)
  | true =>
    cases frame with
    | none => exact .inl (hleaf.trans hgot.leaf)
    | some f =>
      refine .inr ⟨r, f, hreg, ?_, ?_, fun _ hallocated => hgrows1 _ _ _ ?_, fun hfalse => ?_⟩
      · exact window_of_counted hgot.mapped (Mapped.GotPage.counted hgot h.cached)
      · rw [← hgot.leaf]
        exact hleaf
      · obtain ⟨-, hkeys0, hhit⟩ | ⟨g, hg, -, -, -, ⟨hfail, -⟩ | hins⟩ := hgot.how
        · rw [hkeys0.cacheFrame]
          exact hhit f rfl
        · rw [hallocated] at hfail
          cases hfail
        · cases hg
          exact hins.cacheFrame_self
      · rw [hr] at hfalse
        cases hfalse

/-- A demand fault. -/
theorem handleDemandFault (data : Option (Nat → Word)) (allocated : Bool) :
    ∃ ok s' A' L' V', Vm.handleDemandFault s a virt data allocated = (ok, s') ∧
      Faulted a virt allocated s A L V s' A' L' V' := by
  have hgrows : ∀ t : VmState, t.cache = s.cache → CacheGrows s t := fun t ht =>
    (SameKeys.of_eq ht).grows
  have hold : ∀ t : VmState, t.cache = s.cache → ∀ q, Cached t q → 0 < L.refs q → Cached s q := by
    intro t ht q hq _
    exact (SameKeys.of_eq ht).cached hq
  obtain heq | ⟨r, hreg, ⟨hfile, heq⟩ | ⟨hfile, heq⟩⟩ :=
    handleDemandFault_cases s a virt data allocated
  · exact ⟨false, s, A, L, V, heq, h, rfl, rfl, rfl, fun _ _ => rfl, hgrows s rfl, hold s rfl,
      .inl rfl⟩
  · rw [heq]
    exact h.faultFile hnone ha hv hreg hfile data allocated
  obtain ⟨s', A', L', V', -, ⟨hres, hu⟩ | ⟨hres, f, hp⟩⟩ := h.toMapped.faultAnonymous ha hv r
  · exact ⟨false, s', A', L', V', heq.trans hres,
      h.same_refs hu.mapped (.of_eq hu.cache) hu.refs fun q =>
        (mapCount_congr hu.leaf hu.live q).ge,
      hu.live, hu.others, hu.spaces, hu.data, hgrows s' hu.cache, hold s' hu.cache, .inl hu.leaf⟩
  refine ⟨true, s', A', L', V', heq.trans hres, h.freshPage ha hv hnone hp, hp.live,
    hp.others, hp.spaces, hp.data, hgrows s' hp.cache, hold s' hp.cache,
    .inr ⟨r, f, hreg, hp.window, hp.leaf, fun htrue => ?_, fun _ hcach => ?_⟩⟩
  · rw [hfile] at htrue
    cases htrue
  · exact (h.cached f ((SameKeys.of_eq hp.cache).cached hcach)).ne' hp.unused

end

end

/-- A write. -/
theorem written {g} (hleaf : leaf s V k = some old)
    (hw : Written k (pteFrame old) g e words s A L V s' A' L') : ForkInv s' A' L' V := by
  refine ⟨hw.mapped, fun q hq => ?_, fun q => ?_⟩
  · exact hw.refs_pos (h.cached q ((SameKeys.of_eq hw.cache).cached hq))
  · have hbound := h.bound q
    have hbalance := hw.balance h.toMapped (frameAt_of_leaf hleaf) q
    omega

end

end ForkInv

/-! ### Calls that drop nothing -/

/-- Neither pages nor cache entries are dropped, and addresses are in the lower half. -/
def VmCall.Keeps : VmCall → Prop
  | .fault _ addr _ _ | .write _ addr _ => addr < 2 ^ 47
  | .freePage .. | .destroy .. | .cacheInvalidate .. => False
  | _ => True

/-- What such a call does. -/
inductive ForkMove (s : VmState) (A : Arena) (L : Ledger) (V : View) :
    VmCall → VmState → Arena → Ledger → View → Prop
  | same (call : VmCall) : ForkMove s A L V call s A L V
  | create {a vmas s' A' L' V'} (ha : a ∉ V.live) (hc : Created a vmas s A L V s' A' L' V') :
    ForkMove s A L V (.create (some a) vmas) s' A' L' V'
  | setVmas {a vmas} (ha : a ∈ V.live) :
    ForkMove s A L V (.setVmas a vmas) (s.modifySpace a fun a => { a with vmas := vmas }) A L V
  | fault {a virt data allocated s' A' L' V'} (ha : a ∈ V.live)
    (hf : Faulted a virt allocated s A L V s' A' L' V') :
    ForkMove s A L V (.fault a virt data allocated) s' A' L' V'
  | clone {src dst handle newVmas cloned s' A' L' V'} (hsrc : src ∈ V.live)
    (hf : Forked src dst (clonedVmas (s.spaces src).vmas newVmas cloned) s A L V s' A' L' V') :
    ForkMove s A L V (.clone src handle newVmas cloned) s' A' L' V'
  | write {a virt update old g e words s' A' L'} (ha : a ∈ V.live) (hv : pageOf virt < userPages)
    (heq : userWrite s a virt update = (true, s')) (hleaf : leaf s V (a, pageOf virt) = some old)
    (hw : Written (a, pageOf virt) (pteFrame old) g e words s A L V s' A' L') :
    ForkMove s A L V (.write a virt update) s' A' L' V
  | recache {c : _} (call : VmCall) (hkeys : SameKeys s.cache c) :
    ForkMove s A L V call { s with cache := c } A L V
  | others {m A' others} (call : VmCall) (hmach : SameMachine s.pmm A m A')
    (hacc : Accounts m A' { L with others := others }) :
    ForkMove s A L V call { s with pmm := m } A' { L with others := others } V

theorem VmHistory.forkMove {h h' : VmHistory} {A : Arena} {L : Ledger} {V : View} {call : VmCall}
    (hinv : ForkInv h.state A L V) (hlive : V.live = h.live) (hoth : L.others = h.others)
    (hkeeps : call.Keeps) (hstep : h.step call = some h') :
    ∃ s' A' L' V', ForkMove h.state A L V call s' A' L' V' ∧ h'.state = s' ∧ V'.live = h'.live ∧
      L'.others = h'.others := by
  obtain ⟨⟨ok, h1⟩, hperf, rfl⟩ := map_eq_some_iff.mp hstep
  cases call with
  | create handle vmas =>
    obtain ⟨hnew, rfl, rfl⟩ := perform_create hperf
    rw [← hlive] at hnew
    obtain heq | ⟨a, s', A', L', V', rfl, heq, hc⟩ := hinv.toPaging.asCreate_spec handle vmas hnew
    · rw [heq]
      exact ⟨_, A, L, V, .same _, rfl, hlive, hoth⟩
    · rw [heq]
      refine ⟨s', A', L', V', .create (hnew a rfl) hc, rfl, ?_, hc.others.trans hoth⟩
      rw [hc.live, hlive]
      rfl
  | setVmas as vmas =>
    obtain ⟨has, ⟨⟩⟩ := ite_eq_some hperf
    exact ⟨_, A, L, V, .setVmas (hlive ▸ has), rfl, hlive, hoth⟩
  | fault as addr data allocated =>
    obtain ⟨has, habsent, rfl, rfl⟩ := perform_fault hperf
    rw [← hlive] at has
    have hv := pageOf_user hkeeps
    rw [Mapped.presentPte_eq hinv.toPaging has hv] at habsent
    obtain ⟨ok', s', A', L', V', heq, hf⟩ := hinv.handleDemandFault habsent has hv data allocated
    rw [heq]
    exact ⟨s', A', L', V', .fault has hf, rfl, hf.live.trans hlive, hf.others.trans hoth⟩
  | clone src handle newVmas cloned =>
    obtain ⟨hsrc, hnew, rfl, rfl⟩ := perform_clone hperf
    rw [← hlive] at hsrc hnew
    obtain ⟨r, s', A', L', V', heq, -, hf⟩ :=
      hinv.toMapped.asClone hsrc handle newVmas cloned hnew hinv.bound
    rw [heq]
    refine ⟨s', A', L', V', .clone hsrc hf, rfl, ?_, hf.others.trans hoth⟩
    rw [hf.live, hlive]
  | write as virt update =>
    obtain ⟨has, rfl, rfl⟩ := perform_write hperf
    rw [← hlive] at has
    have hv := pageOf_user hkeeps
    obtain heq | ⟨s', A', L', old, g, entry, heq, -, hleaf, hw⟩ :=
      hinv.toMapped.userWrite has hv update
    · rw [heq]
      exact ⟨_, A, L, V, .same _, rfl, hlive, hoth⟩
    · rw [heq]
      exact ⟨s', A', L', V, .write has hv heq hleaf hw, rfl, hlive, hw.others.trans hoth⟩
  | freePage | destroy | cacheInvalidate => exact hkeeps.elim
  | cacheRef | cachePut | cacheMarkDirty | cacheSync =>
    obtain ⟨c, hkeys, rfl⟩ := perform_recache rfl hperf
    exact ⟨_, A, L, V, .recache _ hkeys, rfl, hlive, hoth⟩
  | allocOther | freeOther =>
    obtain ⟨m, A', others, rfl, hmach, hacc⟩ :=
      perform_others hinv.accounts hinv.total hoth rfl hperf
    exact ⟨_, A', _, V, .others _ hmach hacc, rfl, hlive, rfl⟩

/-! ### Private mappings -/

/-- The page of a file in the page cache. -/
def cachedPage (s : VmState) (file offset : Nat) : Option (Nat → Word) :=
  (pageCacheLookup s file offset).map s.mem

/-- Faults in anything but shared writable file mappings, clones, and writes. A write to
a COW page must find more than one reference to its frame if the frame is cached. -/
def VmHistory.PrivateSafe (h : VmHistory) : VmCall → Prop
  | .fault as addr _ _ => addr < 2 ^ 47 ∧
    ∀ r ∈ regionAt h.state as addr, ¬ (r.fileBacked ∧ r.flags.shared ∧ r.flags.write)
  | .write as virt _ => virt < 2 ^ 47 ∧
    ∀ e, presentPte h.state as virt = some e → has e pteCow = true → Cached h.state (pteFrame e) →
      (h.state.pmm.pages (pteFrame e)).refcount ≠ 1
  | .freePage .. | .destroy .. | .cacheInvalidate .. => False
  | _ => True

/-- No page through which a process can write maps a cached frame. -/
structure PrivateInv (s : VmState) (A : Arena) (L : Ledger) (V : View) : Prop extends
    ForkInv s A L V where
  hidden : ∀ k e, leaf s V k = some e → has e pteWritable = true → ¬ Cached s (pteFrame e)

/-- The cache has the pages it had. -/
def PagesKept (s s' : VmState) : Prop :=
  ∀ file offset page, cachedPage s file offset = some page → cachedPage s' file offset = some page

theorem PagesKept.refl (s : VmState) : PagesKept s s := fun _ _ _ h => h

theorem PagesKept.of_grows (hgrows : CacheGrows s s')
    (hdata : ∀ f, Cached s f → s'.mem f = s.mem f) : PagesKept s s' := by
  intro file offset page hpage
  obtain ⟨f, hf, rfl⟩ := map_eq_some_iff.mp hpage
  unfold pageCacheLookup at hf
  split at hf
  · cases hf
  case isFalse hfile =>
  have hf' : pageCacheLookup s' file offset = some f := by
    rw [pageCacheLookup, if_neg hfile]
    exact hgrows file offset f hf
  rw [cachedPage, hf', map_some, hdata f (cached_of_cacheFrame hf)]

/-- Which pages of an area are writable from the start. -/
theorem Region.has_writable (r : Region) :
    has r.allFlags pteWritable = (r.flags.write && (!r.fileBacked || r.flags.shared)) := by
  unfold allFlags pteFlags
  generalize r.fileBacked = file, r.flags.shared = shared, r.flags.write = write,
    r.flags.exec = exec
  revert file shared write exec
  decide

namespace PrivateInv

variable {s s' : VmState} {A A' : Arena} {L L' : Ledger} {V V' : View} {a f : Nat}

section

variable (h : PrivateInv s A L V)
include h

theorem created (ha : a ∉ V.live) (hc : Created a vmas s A L V s' A' L' V') :
    PrivateInv s' A' L' V' ∧ PagesKept s s' := by
  have hkeys := SameKeys.of_eq hc.cache
  refine ⟨⟨h.toForkInv.created ha hc, fun k e hk hw hcach => ?_⟩,
    .of_grows hkeys.grows fun f hf => hc.data f (h.cached f hf)⟩
  rw [hc.leaf] at hk
  exact h.hidden k e hk hw (hkeys.cached hcach)

theorem forked (hf : Forked src dst vmas s A L V s' A' L' V') :
    PrivateInv s' A' L' V' ∧ PagesKept s s' := by
  have hkeys := SameKeys.of_eq hf.cache
  refine ⟨⟨h.toForkInv.forked hf, fun k e hk hw hcach => ?_⟩,
    .of_grows hkeys.grows fun f hcach => hf.data f (h.cached f hcach)⟩
  exact h.hidden k e (hf.writable k e hk hw).1 hw (hkeys.cached hcach)

theorem faulted (hsafe : ∀ r ∈ regionAt s a virt, ¬ (r.fileBacked ∧ r.flags.shared ∧ r.flags.write))
    (hf : Faulted a virt allocated s A L V s' A' L' V') :
    PrivateInv s' A' L' V' ∧ PagesKept s s' := by
  have hold : ∀ k e, leaf s V k = some e → has e pteWritable = true → ¬ Cached s' (pteFrame e) :=
    fun k e hk hw hcach => h.hidden k e hk hw
      (hf.cachedOld _ hcach (h.counted k _ (frameAt_of_leaf hk)))
  refine ⟨⟨hf.inv, fun k e hk hw => ?_⟩, .of_grows hf.grows fun q hq => hf.data q (h.cached q hq)⟩
  obtain hleaf | ⟨r, f, hreg, hwindow, hleaf, -, hanon⟩ := hf.leaf <;> rw [hleaf] at hk
  · exact hold k e hk hw
  rcases update_cases hk with ⟨-, ⟨⟩⟩ | ⟨-, hk⟩
  · rw [pteFrame_mapEntry _ (Mapped.inWindow_lt hwindow)]
    apply hanon
    -- Only anonymous areas give out writable pages here.
    have hnot := hsafe r hreg
    rw [has_writable_mapEntry, Region.has_writable, and_eq_true, or_eq_true, not_eq_true'] at hw
    rcases hw.2 with hfile | hsh
    · exact hfile
    · cases hfile : r.fileBacked with
      | false => rfl
      | true => exact absurd ⟨hfile, hsh, hw.1⟩ hnot
  · exact hold k e hk hw

theorem recache (hkeys : SameKeys s.cache c) :
    PrivateInv { s with cache := c } A L V ∧ PagesKept s { s with cache := c } := by
  exact ⟨⟨h.toForkInv.recache hkeys, fun k e hk hw hcach =>
    h.hidden k e hk hw (hkeys.cached hcach)⟩, .of_grows hkeys.grows fun _ _ => rfl⟩

end

theorem written {update g} (h : PrivateInv s A L V) (ha : a ∈ V.live)
    (hv : pageOf virt < userPages) (heq : Vm.userWrite s a virt update = (true, s'))
    (hleaf : leaf s V (a, pageOf virt) = some old)
    (hw : Written (a, pageOf virt) (pteFrame old) g e words s A L V s' A' L')
    (hsafe : ∀ e, presentPte s a virt = some e → has e pteCow = true → Cached s (pteFrame e) →
      (s.pmm.pages (pteFrame e)).refcount ≠ 1) : PrivateInv s' A' L' V ∧ PagesKept s s' := by
  have hkeys := SameKeys.of_eq hw.cache
  -- The frame written to is not in the cache.
  have hg : ¬ Cached s g := by
    obtain ⟨rfl, -, hone⟩ | ⟨hzero, -, -⟩ := hw.how
    · cases hwritable : has old pteWritable with
      | true => exact h.hidden _ old hleaf hwritable
      | false =>
        rcases hone with hone | ⟨e, he, hew⟩
        · intro hc
          have hpte : presentPte s a virt = some old := by
            rw [Mapped.presentPte_eq h.toPaging ha hv, hleaf]
          -- The write went through a COW fault.
          have hcow : has old pteCow = true := by
            by_contra hcow
            simp [Vm.userWrite, hpte, hwritable, hcow] at heq
          apply hsafe old hpte hcow hc
          rw [(h.accounts.counted _ (h.cached _ hc)).2, hone]
        rw [hleaf] at he
        cases he
        rw [hwritable] at hew
        cases hew
    · exact fun hc => (h.cached g hc).ne' hzero
  refine ⟨⟨h.toForkInv.written hleaf hw, fun k e hk hwk hc => ?_⟩,
    .of_grows (hkeys.grows) fun q hq => ?_⟩
  · rw [hw.leaf] at hk
    rcases update_cases hk with ⟨-, ⟨⟩⟩ | ⟨-, hk⟩
    · rw [hw.frame] at hc
      exact hg (hkeys.cached hc)
    · exact h.hidden k e hk hwk (hkeys.cached hc)
  · exact hw.data q (fun he => hg (he ▸ hq)) (h.cached q hq)

end PrivateInv

/-- What accounts for the state of a history with private mappings. -/
def VmHistory.PrivateTracks (h : VmHistory) : Prop :=
  ∃ A L V, PrivateInv h.state A L V ∧ V.live = h.live ∧ L.others = h.others

namespace VmHistory.PrivateTracks

variable {h h' : VmHistory}

/-- One call that meets the condition. -/
theorem step (ht : h.PrivateTracks) {call : VmCall} (hsafe : h.PrivateSafe call)
    (hstep : h.step call = some h') : h'.PrivateTracks ∧ PagesKept h.state h'.state := by
  obtain ⟨A, L, V, hinv, hlive, hoth⟩ := ht
  have hkeeps : call.Keeps := by
    cases call <;> first | exact hsafe.1 | exact hsafe
  obtain ⟨s', A', L', V', hmove, hstate, hlive', hoth'⟩ :=
    forkMove hinv.toForkInv hlive hoth hkeeps hstep
  have hnew : PrivateInv s' A' L' V' ∧ PagesKept h.state s' := by
    cases hmove with
    | same => exact ⟨hinv, .refl _⟩
    | create ha hc => exact hinv.created ha hc
    | @setVmas as vmas =>
      exact ⟨⟨⟨hinv.toMapped.setVmas as vmas, hinv.cached, hinv.bound⟩, hinv.hidden⟩,
        .of_grows (SameKeys.refl _).grows fun _ _ => rfl⟩
    | fault _ hf => exact hinv.faulted hsafe.2 hf
    | clone _ hf => exact hinv.forked hf
    | write ha hv heq hleaf hw => exact hinv.written ha hv heq hleaf hw hsafe.2
    | recache _ hkeys => exact hinv.recache hkeys
    | others _ hmach hacc =>
      exact ⟨⟨hinv.toForkInv.others_move hmach hacc, hinv.hidden⟩,
        .of_grows (SameKeys.refl _).grows fun _ _ => rfl⟩
  rw [PrivateTracks, hstate]
  exact ⟨⟨A', L', V', hnew.1, hlive', hoth'⟩, hnew.2⟩

theorem start (B : VmBoot) : B.start.PrivateTracks := by
  obtain ⟨A, L, V, hinv, hlive, hoth⟩ := FileTracks.start B
  have hemp : V.live = ∅ := hlive
  refine ⟨A, L, V, ⟨⟨hinv.toMapped, hinv.cached, fun f => ?_⟩, fun k e hk => ?_⟩, hlive, hoth⟩
  · have := hinv.one f
    omega
  · have hmem := (hinv.leaf_key hk).1
    rw [hemp] at hmem
    exact absurd hmem (notMem_empty _)

end VmHistory.PrivateTracks

/-- **Private mappings leave the page cache alone.** As long as every write to a COW page
of a cached frame finds more than one reference, a page that is in the cache keeps its
contents, whatever is faulted in, cloned and written afterwards. -/
theorem private_writes_keep_cache (B : VmBoot) {calls calls' : List VmCall} {h h' : VmHistory}
    (hrun : GuardedRun VmHistory.step VmHistory.PrivateSafe B.start calls h)
    (hrun' : GuardedRun VmHistory.step VmHistory.PrivateSafe h calls' h') :
    PagesKept h.state h'.state := by
  have htracks : h.PrivateTracks := hrun.inv VmHistory.PrivateTracks
    (fun _ _ _ ht hsafe hstep => (ht.step hsafe hstep).1) (.start B)
  have hend := hrun'.inv (fun t => t.PrivateTracks ∧ PagesKept h.state t.state)
    (fun t _ t' ht hsafe hstep => ?_) ⟨htracks, .refl _⟩
  · exact hend.2
  · obtain ⟨ht', hkept⟩ := ht.1.step hsafe hstep
    exact ⟨ht', fun file offset page hpage => hkept file offset page (ht.2 file offset page hpage)⟩

/-- A check that implies the condition. -/
def VmHistory.privateCheck (h : VmHistory) : VmCall → Bool
  | .fault as addr _ _ => decide (addr < 2 ^ 47) &&
    (regionAt h.state as addr).all fun r => !(r.fileBacked && r.flags.shared && r.flags.write)
  | .write as virt _ => decide (virt < 2 ^ 47) &&
    (presentPte h.state as virt).all fun e => (h.state.pmm.pages (pteFrame e)).refcount != 1
  | .create .. | .clone .. => true
  | _ => false

theorem VmHistory.privateSafe_of_check (h : VmHistory) (call : VmCall)
    (hcheck : h.privateCheck call = true) : h.PrivateSafe call := by
  cases call with
  | create | clone => trivial
  | fault as addr =>
    simp only [privateCheck, and_eq_true, decide_eq_true_eq] at hcheck
    refine ⟨hcheck.1, fun r hr => ?_⟩
    have hall := hcheck.2
    rw [mem_def.mp hr] at hall
    rintro ⟨hfile, hsh, hwrite⟩
    simp [hfile, hsh, hwrite] at hall
  | write as virt =>
    simp only [privateCheck, and_eq_true, decide_eq_true_eq] at hcheck
    refine ⟨hcheck.1, fun e he _ _ => ?_⟩
    have hall := hcheck.2
    rw [he] at hall
    simpa using hall
  | setVmas | freePage | destroy | cacheRef | cachePut | cacheMarkDirty | cacheSync
  | cacheInvalidate | allocOther | freeOther => cases hcheck

/-- A page of a private writable mapping is faulted in. -/
def privateFault : List VmCall :=
  [.create (some 1) (some [filePage 0x7ffffffff000 { read := true, write := true }]),
    .fault 1 0x7ffffffff000 (some fun _ => 3) true]

/-- The process forks, then writes. -/
def forkThenWrite : List VmCall :=
  [.clone 1 (some 2) (some []) true, .write 1 0x7ffffffff000 fun _ => 4]

theorem private_writes_keep_cache_forkThenWrite :
    ∃ h h', GuardedRun VmHistory.step VmHistory.PrivateSafe smallVmBoot.start privateFault h ∧
      GuardedRun VmHistory.step VmHistory.PrivateSafe h forkThenWrite h' ∧
      userRead h'.state 1 0x7ffffffff000 = some 4 ∧ userRead h'.state 2 0x7ffffffff000 = some 3 ∧
      PagesKept h.state h'.state := by
  obtain ⟨h, hrun, h', hrun', hone, htwo⟩ : ∃ h, run (fun h call =>
      if h.privateCheck call then VmHistory.step h call else none) smallVmBoot.start privateFault =
        some h ∧ ∃ h', run (fun h call =>
      if h.privateCheck call then VmHistory.step h call else none) h forkThenWrite = some h' ∧
        userRead h'.state 1 0x7ffffffff000 = some 4 ∧
        userRead h'.state 2 0x7ffffffff000 = some 3 := by decide +kernel
  have hguarded := GuardedRun.of_checked VmHistory.privateSafe_of_check hrun
  have hguarded' := GuardedRun.of_checked VmHistory.privateSafe_of_check hrun'
  exact ⟨h, h', hguarded, hguarded', hone, htwo,
    private_writes_keep_cache smallVmBoot hguarded hguarded'⟩

/-- A page of a private writable mapping, faulted in and written to. -/
def privateWrite : List VmCall :=
  [.create (some 1) (some [filePage 0x400000 { read := true, write := true }]),
    .fault 1 0x400000 (some fun _ => 3) true, .write 1 0x400000 fun _ => 4]

/-- The cached frame has one reference, so `handle_cow_fault` makes it writable in place,
and the write changes the page of the file. -/
theorem privateWrite_changes_cache :
    ∃ h h', run VmHistory.step smallVmBoot.start (privateWrite.take 2) = some h ∧
      run VmHistory.step smallVmBoot.start privateWrite = some h' ∧
      (cachedPage h.state 1 0).map (· 0) = some 3 ∧
      (cachedPage h'.state 1 0).map (· 0) = some 4 ∧ ¬ PagesKept h.state h'.state := by
  obtain ⟨h, hrun, h', hrun', hbefore, hafter⟩ : ∃ h,
      run VmHistory.step smallVmBoot.start (privateWrite.take 2) = some h ∧ ∃ h',
        run VmHistory.step smallVmBoot.start privateWrite = some h' ∧
          (cachedPage h.state 1 0).map (· 0) = some 3 ∧
          (cachedPage h'.state 1 0).map (· 0) = some 4 := by decide +kernel
  refine ⟨h, h', hrun, hrun', hbefore, hafter, fun hkept => ?_⟩
  obtain ⟨page, hpage, hword⟩ := map_eq_some_iff.mp hbefore
  rw [hkept 1 0 page hpage, map_some, hword] at hafter
  exact absurd hafter (by decide)

end Kurios.Vm
