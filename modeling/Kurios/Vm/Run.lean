import Kurios.Pmm.Run
import Kurios.Vm.Account

/-!
Histories of address spaces.

A history is any sequence of creations, faults, clones, user writes, freed pages and
destructions over any number of address spaces, interleaved with calls of the page
cache and with allocations by the rest of the kernel.

For anonymous memory in the user half, two results are about all histories. The
reference count of every frame is the number of page-table entries that map it, and
frames come back to the allocator with their last entry (`frame_accounting`). And an
address space behaves as if its memory were its own (`private_memory`).
-/

namespace Kurios.Vm

open Base Pmm Function Option Finset

variable {handle : Option Nat} {newVmas vmas : Option (List Region)} {addr as src virt : Nat}
  {data : Option (Nat → Word)} {allocated cloned : Bool} {L : Ledger} {A : Arena}

/-- A call, or a step of a user program. -/
inductive VmCall where
  | create (handle : Option Nat) (vmas : Option (List Region))
  | setVmas (as : Nat) (vmas : Option (List Region))
  | fault (as addr : Nat) (data : Option (Nat → Word)) (allocated : Bool)
  | clone (src : Nat) (handle : Option Nat) (newVmas : Option (List Region)) (cloned : Bool)
  | write (as virt : Nat) (update : Word → Word)
  | freePage (as virt : Nat)
  | destroy (as : Nat)
  | cacheRef (file offset : Nat)
  | cachePut (file offset : Nat)
  | cacheMarkDirty (file offset : Nat)
  | cacheSync (file : Nat) (written : CacheEntry → Bool)
  | cacheInvalidate (file : Nat)
  | allocOther (order : Nat)
  | freeOther (block : Block)

/-- Others allocate or free. -/
def VmCall.ofOthers : VmCall → Bool
  | .allocOther _ | .freeOther _ => true
  | _ => false

/-- The state, the live address spaces, and the blocks of other parts of the kernel. -/
structure VmHistory where
  state : VmState
  live : Finset Nat
  others : Finset Block

namespace VmHistory

/-- The state changes, the rest does not. -/
def withState (h : VmHistory) (s : VmState) : VmHistory := { h with state := s }

/-- One call, and whether it succeeded. `kmalloc` returns no handle that is in use, a
demand fault is raised by a page that is not present, and others free what is theirs. -/
def perform (h : VmHistory) : VmCall → Option (Bool × VmHistory)
  | .create handle vmas =>
    if handle.any (decide <| · ∈ h.live) then none else
    let (r, s) := asCreate h.state handle vmas
    some (r.isSome, ⟨s, r.elim h.live fun a => insert a h.live, h.others⟩)
  | .setVmas as vmas =>
    if as ∈ h.live then
      some (true, h.withState (h.state.modifySpace as fun a => { a with vmas := vmas }))
    else none
  | .fault as addr data allocated =>
    if as ∈ h.live ∧ presentPte h.state as addr = none then
      let (ok, s) := handleDemandFault h.state as addr data allocated
      some (ok, h.withState s)
    else none
  | .clone src handle newVmas cloned =>
    if src ∈ h.live ∧ ¬ handle.any (decide <| · ∈ h.live) then
      let (r, s) := asClone h.state src handle newVmas cloned
      some (r.isSome, ⟨s, r.elim h.live fun a => insert a h.live, h.others⟩)
    else none
  | .write as virt update =>
    if as ∈ h.live then
      let (ok, s) := userWrite h.state as virt update
      some (ok, h.withState s)
    else none
  | .freePage as virt =>
    if as ∈ h.live then some (true, h.withState (asFreePage h.state as virt)) else none
  | .destroy as =>
    if as ∈ h.live then some (true, ⟨asDestroy h.state as, h.live.erase as, h.others⟩) else none
  | .cacheRef file offset => some (true, h.withState (pageCacheRef h.state file offset))
  | .cachePut file offset => some (true, h.withState (pageCachePut h.state file offset))
  | .cacheMarkDirty file offset => some (true, h.withState (pageCacheMarkDirty h.state file offset))
  | .cacheSync file written => some (true, h.withState (pageCacheSync h.state file written))
  | .cacheInvalidate file => some (true, h.withState (pageCacheInvalidate h.state file))
  | .allocOther order =>
    let (addr, m) := allocPages h.state.pmm order
    if addr = 0 then some (false, h.withState { h.state with pmm := m })
    else some (true, ⟨{ h.state with pmm := m }, h.live, insert ⟨physToPfn addr, order⟩ h.others⟩)
  | .freeOther block =>
    if block ∈ h.others then
      some (true, ⟨{ h.state with
        pmm := freePages h.state.pmm (pfnToPhys block.base) block.order }, h.live,
        h.others.erase block⟩)
    else none

def step (h : VmHistory) (call : VmCall) : Option VmHistory := (h.perform call).map Prod.snd

/-! What a call that is performed is known to do. -/

variable {h h' : VmHistory} {ok : Bool}

theorem perform_create (hstep : h.perform (.create handle vmas) = some (ok, h')) :
    (∀ a ∈ handle, a ∉ h.live) ∧
      ok = (asCreate h.state handle vmas).1.isSome ∧
      h' = ⟨(asCreate h.state handle vmas).2,
        (asCreate h.state handle vmas).1.elim h.live fun a => insert a h.live, h.others⟩ := by
  simp only [perform] at hstep
  split at hstep
  · cases hstep
  case isFalse hguard =>
  cases hstep
  refine ⟨?_, rfl, rfl⟩
  rintro a rfl hin
  simp [hin] at hguard

theorem perform_fault (hstep : h.perform (.fault as addr data allocated) = some (ok, h')) :
    as ∈ h.live ∧ presentPte h.state as addr = none ∧
      ok = (handleDemandFault h.state as addr data allocated).1 ∧
      h' = h.withState (handleDemandFault h.state as addr data allocated).2 := by
  obtain ⟨hguard, ⟨⟩⟩ := ite_eq_some hstep
  exact ⟨hguard.1, hguard.2, rfl, rfl⟩

theorem perform_clone (hstep : h.perform (.clone src handle newVmas cloned) = some (ok, h')) :
    src ∈ h.live ∧ (∀ a ∈ handle, a ∉ h.live) ∧
      ok = (asClone h.state src handle newVmas cloned).1.isSome ∧
      h' = ⟨(asClone h.state src handle newVmas cloned).2,
        (asClone h.state src handle newVmas cloned).1.elim h.live fun a => insert a h.live,
        h.others⟩ := by
  obtain ⟨hguard, ⟨⟩⟩ := ite_eq_some hstep
  refine ⟨hguard.1, ?_, rfl, rfl⟩
  rintro a rfl hin
  exact hguard.2 (by simp [hin])

theorem perform_write {update} (hstep : h.perform (.write as virt update) = some (ok, h')) :
    as ∈ h.live ∧ ok = (userWrite h.state as virt update).1 ∧
      h' = h.withState (userWrite h.state as virt update).2 := by
  obtain ⟨hguard, ⟨⟩⟩ := ite_eq_some hstep
  exact ⟨hguard, rfl, rfl⟩

/-- Others allocate and free: the allocator changes, and the ledger follows. -/
theorem perform_others (hacc : Accounts h.state.pmm A L)
    (htotal : 2 ^ maxOrder ∣ h.state.pmm.totalPages) (hoth : L.others = h.others) {call}
    (hcall : call.ofOthers = true) (hstep : h.perform call = some (ok, h')) :
    ∃ m A' others, h' = ⟨{ h.state with pmm := m }, h.live, others⟩ ∧
      SameMachine h.state.pmm A m A' ∧ Accounts m A' { L with others := others } := by
  cases call with
  | allocOther order =>
    simp only [perform] at hstep
    obtain heq | ⟨pfn, m, A', heq, hpos, hmach, hacc'⟩ := hacc.allocOther order
    · rw [heq] at hstep
      cases hstep
      refine ⟨h.state.pmm, A, L.others, ?_, .refl _ _, hacc⟩
      rw [hoth]
      rfl
    have hne := pfnToPhys_ne_zero hpos
    rw [heq] at hstep
    simp only [if_neg hne, physToPfn_pfnToPhys, ← hoth] at hstep
    cases hstep
    exact ⟨m, A', _, rfl, hmach, hacc'⟩
  | freeOther block =>
    simp only [perform, ← hoth] at hstep
    obtain ⟨hblock, ⟨⟩⟩ := ite_eq_some hstep
    obtain ⟨A', hmach, hacc'⟩ := hacc.freeOther htotal hblock
    exact ⟨_, A', _, rfl, hmach, hacc'⟩
  | _ => cases hcall

end VmHistory

/-- A machine before its first address space: the allocator is in order, its frames are
in the kernel window, and the page cache is empty. -/
structure VmBoot where
  state : VmState
  arena : Arena
  buddy : Buddy state.pmm arena
  total : 2 ^ maxOrder ∣ state.pmm.totalPages
  window : ∀ f ∈ arena.frames, InWindow f
  cache : state.cache = fun _ => []

def VmBoot.start (B : VmBoot) : VmHistory := ⟨B.state, ∅, B.arena.live⟩

/-! ### Anonymous memory -/

/-- The call is one on anonymous memory: a fault hits no file mapping, and the page
cache is left alone. -/
def VmHistory.Anonymous (h : VmHistory) : VmCall → Prop
  | .fault as addr _ _ => ∀ r ∈ regionAt h.state as addr, r.fileBacked = false
  | .cacheRef .. | .cachePut .. | .cacheMarkDirty .. | .cacheSync .. | .cacheInvalidate .. => False
  | _ => True

instance (h : VmHistory) : DecidablePred h.Anonymous := fun call => by
  unfold VmHistory.Anonymous
  split <;> infer_instance

/-- Every address is one of the user half. -/
def VmCall.UserHalf : VmCall → Prop
  | .fault _ addr _ _ => addr < 2 ^ 47
  | .write _ virt _ => virt < 2 ^ 47
  | .freePage _ virt => virt < 2 ^ 47
  | _ => True

instance : DecidablePred VmCall.UserHalf := fun call => by
  unfold VmCall.UserHalf
  split <;> infer_instance

/-- A step on anonymous memory. -/
def VmHistory.anonymousStep (h : VmHistory) (call : VmCall) : Option VmHistory :=
  if h.Anonymous call then h.step call else none

/-- A step on anonymous memory of the user half. -/
def VmHistory.userStep (h : VmHistory) (call : VmCall) : Option VmHistory :=
  if call.UserHalf then h.anonymousStep call else none

variable {h : VmHistory}

theorem VmHistory.userStep_spec {call h'} (hstep : h.userStep call = some h') :
    call.UserHalf ∧ h.Anonymous call ∧ ∃ ok, h.perform call = some (ok, h') := by
  obtain ⟨huser, hstep⟩ := ite_none_right_eq_some.mp hstep
  obtain ⟨hanon, ⟨ok, h1⟩, hperf, rfl⟩ := ite_map_eq_some hstep
  exact ⟨huser, hanon, ok, hperf⟩

/-! ### Memory of one's own -/

/-- The pages of each address space. -/
abbrev PrivateMemory := Nat → Nat → Option (Nat → Word)

/-- What a call does when every address space has a memory of its own. A page comes with
zeros, a clone starts with the pages its parent has at that moment, and a call that
fails does nothing. -/
def privateStep (p : PrivateMemory) (ok : Bool) (call : VmCall) : PrivateMemory :=
  if !ok then p else
  match call with
  | .create (some as) _ => update p as fun _ => none
  | .fault as addr _ _ => setPage p as (pageOf addr) (some fun _ => 0)
  | .clone src (some as) _ _ => update p as (p src)
  | .write as virt update =>
    setPage p as (pageOf virt) ((p as (pageOf virt)).map (Mapped.stored virt update))
  | .freePage as virt => setPage p as (pageOf virt) none
  | .destroy as => update p as fun _ => none
  | _ => p

/-- The word at an address. -/
def privateRead (p : PrivateMemory) (as virt : Nat) : Option Word :=
  (p as (pageOf virt)).map fun words => words (virt % pageSize / 8)

/-- The kernel and the private memories side by side. -/
def privateRunStep (hp : VmHistory × PrivateMemory) (call : VmCall) :
    Option (VmHistory × PrivateMemory) :=
  if call.UserHalf ∧ hp.1.Anonymous call then
    (hp.1.perform call).map fun r => (r.2, privateStep hp.2 r.1 call)
  else none

/-! ### One step -/

namespace VmHistory

/-- The history, the private memories, and what accounts for the state. -/
structure Tracks (frames : Finset Nat) (h : VmHistory) (p : PrivateMemory) (A : Arena)
    (L : Ledger) (V : View) : Prop where
  exact : Exact h.state A L V
  live : V.live = h.live
  others : L.others = h.others
  frames : A.frames = frames
  contents : contents h.state V = p

/-- The state after a call is accounted for, and frames that lost their last reference
are free. -/
def Stepped (frames : Finset Nat) (L : Ledger) (h h' : VmHistory) (p' : PrivateMemory) : Prop :=
  ∃ A' L' V', Tracks frames h' p' A' L' V' ∧
    ∀ f, 0 < L.refs f → L'.refs f = 0 → f ∉ L'.tables ∧ h'.others = h.others

namespace Tracks

variable {frames : Finset Nat} {h h' : VmHistory} {p : PrivateMemory} {A : Arena} {L : Ledger}
  {V : View} {ok : Bool}

section

variable (ht : Tracks frames h p A L V)
include ht

/-- Calls that leave every page as it is. -/
theorem unchanged {s' A' L' V'}
    (hu : Unchanged h.state A L V s' A' L' V') : Stepped frames L h (h.withState s') p := by
  obtain ⟨hexact, hcont⟩ := ht.exact.unchanged hu
  refine ⟨A', L', V', ⟨hexact, hu.live.trans ht.live, hu.others.trans ht.others,
    hu.machine.frames.trans ht.frames, hcont.trans ht.contents⟩, fun f hf hzero => ?_⟩
  rw [hu.refs] at hzero
  omega

theorem create (hstep : h.perform (.create handle vmas) = some (ok, h')) :
    Stepped frames L h h' (privateStep p ok (.create handle vmas)) := by
  obtain ⟨hnew, rfl, rfl⟩ := perform_create hstep
  rw [← ht.live] at hnew
  obtain heq | ⟨a, s', A', L', V', rfl, heq, hc⟩ := ht.exact.toPaging.asCreate_spec handle vmas hnew
  · rw [heq]
    exact ht.unchanged ht.exact.toMapped.unchanged
  rw [heq]
  obtain ⟨hexact, hcont⟩ := ht.exact.created (hnew a rfl) hc
  refine ⟨A', L', V', ⟨hexact, ?_, hc.others.trans ht.others, hc.machine.frames.trans ht.frames,
    ?_⟩, fun f hf hzero => ?_⟩
  · rw [hc.live, ht.live]
    rfl
  · rw [hcont, ht.contents]
    rfl
  · rw [hc.refs] at hzero
    omega

theorem setVmas (hstep : h.perform (.setVmas as vmas) = some (ok, h')) :
    Stepped frames L h h' (privateStep p ok (.setVmas as vmas)) := by
  obtain ⟨-, ⟨⟩⟩ := ite_eq_some hstep
  exact ⟨A, L, V, ⟨⟨ht.exact.toMapped.setVmas as vmas, ht.exact.exact, ht.exact.exclusive⟩,
    ht.live, ht.others, ht.frames, ht.contents⟩, fun f hf hzero => absurd hzero hf.ne'⟩

theorem fault (huser : addr < 2 ^ 47) (hanon : h.Anonymous (.fault as addr data allocated))
    (hstep : h.perform (.fault as addr data allocated) = some (ok, h')) :
    Stepped frames L h h' (privateStep p ok (.fault as addr data allocated)) := by
  obtain ⟨hlive, habsent, rfl, rfl⟩ := perform_fault hstep
  rw [← ht.live] at hlive
  have hv := pageOf_user huser
  rw [Mapped.presentPte_eq ht.exact.toPaging hlive hv] at habsent
  obtain heq | ⟨r, hreg, ⟨hfile, -⟩ | ⟨-, heq⟩⟩ :=
    handleDemandFault_cases h.state as addr data allocated
  · rw [heq]
    exact ht.unchanged ht.exact.toMapped.unchanged
  · rw [hanon r hreg] at hfile
    cases hfile
  rw [heq]
  obtain ⟨s', A', L', V', -, ⟨hres, hu⟩ | ⟨hres, f, hp⟩⟩ :=
    ht.exact.toMapped.faultAnonymous hlive hv r <;> rw [hres]
  · exact ht.unchanged hu
  obtain ⟨hexact, hcont⟩ := ht.exact.freshPage hlive hv habsent hp
  rw [ht.contents] at hcont
  refine ⟨A', L', V', ⟨hexact, hp.live.trans ht.live, hp.others.trans ht.others,
    hp.machine.frames.trans ht.frames, hcont⟩, fun q hq hzero => ?_⟩
  rw [hp.refs] at hzero
  exact absurd hzero (update_one_pos (.inr hq)).ne'

theorem clone (hstep : h.perform (.clone src handle newVmas cloned) = some (ok, h')) :
    Stepped frames L h h' (privateStep p ok (.clone src handle newVmas cloned)) := by
  obtain ⟨hsrc, hnew, rfl, rfl⟩ := perform_clone hstep
  rw [← ht.live] at hsrc hnew
  obtain ⟨r, s', A', L', V', heq, hr, hf⟩ :=
    ht.exact.toMapped.asClone hsrc handle newVmas cloned hnew ht.exact.bound
  obtain ⟨hexact, hcont⟩ := ht.exact.forked hf
  rw [heq]
  refine ⟨A', L', V', ⟨hexact, ?_, hf.others.trans ht.others, hf.machine.frames.trans ht.frames,
    ?_⟩, fun q hq hzero => ?_⟩
  · rw [hf.live, ht.live]
  · rw [hcont, ht.contents]
    obtain rfl | rfl := hr
    · rfl
    · cases r with
      | none => rfl
      | some d => rfl
  · rw [hf.refs] at hzero
    omega

theorem write {update} (huser : virt < 2 ^ 47)
    (hstep : h.perform (.write as virt update) = some (ok, h')) :
    Stepped frames L h h' (privateStep p ok (.write as virt update)) := by
  obtain ⟨hlive, rfl, rfl⟩ := perform_write hstep
  rw [← ht.live] at hlive
  obtain heq | ⟨s', A', L', old, g, entry, heq, -, hleaf, hw⟩ :=
    ht.exact.toMapped.userWrite hlive (pageOf_user huser) update
  · rw [heq]
    exact ht.unchanged ht.exact.toMapped.unchanged
  rw [heq]
  obtain ⟨hexact, hcont⟩ := ht.exact.written hleaf hw
  rw [ht.contents] at hcont
  refine ⟨A', L', V, ⟨hexact, ht.live, hw.others.trans ht.others,
    hw.machine.frames.trans ht.frames, ?_⟩, fun q hq hzero => absurd hzero (hw.refs_pos hq).ne'⟩
  have hpage : p as (pageOf virt) = some (h.state.mem (pteFrame old)) := by
    rw [← ht.contents, Vm.contents, frameAt_of_leaf hleaf]
    rfl
  simp only [privateStep, hpage]
  exact hcont

theorem freePage (huser : virt < 2 ^ 47) (hstep : h.perform (.freePage as virt) = some (ok, h')) :
    Stepped frames L h h' (privateStep p ok (.freePage as virt)) := by
  obtain ⟨hlive, ⟨⟩⟩ := ite_eq_some hstep
  rw [← ht.live] at hlive
  obtain ⟨A', L', hexact, hcont, hmach, hoth⟩ := ht.exact.asFreePage hlive (pageOf_user huser)
  rw [ht.contents] at hcont
  refine ⟨A', L', V, ⟨hexact, ht.live, hoth.trans ht.others, hmach.frames.trans ht.frames,
    hcont⟩, fun f hf _ => ⟨fun htable => ?_, rfl⟩⟩
  exact ht.exact.accounts.counted_not_table hf ((ht.exact.owned f).mp ((hexact.owned f).mpr htable))

theorem destroy (hstep : h.perform (.destroy as) = some (ok, h')) :
    Stepped frames L h h' (privateStep p ok (.destroy as)) := by
  obtain ⟨hlive, ⟨⟩⟩ := ite_eq_some hstep
  rw [← ht.live] at hlive
  obtain ⟨A', L', V', hd, hexact, hcont⟩ := ht.exact.asDestroy hlive
  rw [ht.contents] at hcont
  refine ⟨A', L', V', ⟨hexact, ?_, hd.others.trans ht.others, hd.machine.frames.trans ht.frames,
    hcont⟩, fun f hf _ => ⟨fun htable => ?_, rfl⟩⟩
  · rw [hd.live, ht.live]
  · exact ht.exact.accounts.counted_not_table hf
      ((ht.exact.owned f).mp (hd.tables f ((hexact.owned f).mpr htable)))

/-- Others allocate and free. -/
theorem others_step {call} (hcall : call.ofOthers = true)
    (hstep : h.perform call = some (ok, h')) : Stepped frames L h h' (privateStep p ok call) := by
  have hpriv : privateStep p ok call = p := by
    cases call <;> cases hcall <;> cases ok <;> rfl
  obtain ⟨m, A', others, rfl, hmach, hacc⟩ :=
    perform_others ht.exact.accounts ht.exact.total ht.others hcall hstep
  rw [hpriv]
  exact ⟨A', { L with others := others }, V,
    ⟨⟨ht.exact.toMapped.move hmach hacc ht.exact.counted,
    ht.exact.exact, ht.exact.exclusive⟩, ht.live, rfl, hmach.frames.trans ht.frames,
    ht.contents⟩, fun f hf hzero => absurd hzero hf.ne'⟩

/-- One call on anonymous memory of the user half. -/
theorem step {call} (huser : call.UserHalf) (hanon : h.Anonymous call)
    (hstep : h.perform call = some (ok, h')) : Stepped frames L h h' (privateStep p ok call) := by
  cases call with
  | create => exact ht.create hstep
  | setVmas => exact ht.setVmas hstep
  | fault => exact ht.fault huser hanon hstep
  | clone => exact ht.clone hstep
  | write => exact ht.write huser hstep
  | freePage => exact ht.freePage huser hstep
  | destroy => exact ht.destroy hstep
  | allocOther | freeOther => exact ht.others_step rfl hstep
  | cacheRef | cachePut | cacheMarkDirty | cacheSync | cacheInvalidate => exact hanon.elim

end

/-- The state at boot. -/
theorem start (B : VmBoot) :
    Tracks B.arena.frames B.start (fun _ _ => none) B.arena ⟨B.arena.live, ∅, fun _ => 0⟩
      ⟨∅, ⟨fun _ _ _ => none⟩⟩ where
  exact :=
    { toPaging := .start B.buddy fun f hf => by
        have := B.window f hf
        rw [InWindow] at this
        omega
      total := B.total
      window := B.window
      counted := fun k f hk => by cases hk
      single := fun a ha => absurd ha (notMem_empty a)
      exact := fun f => by simp [mapCount, View.keys, hits]
      exclusive := fun k e hk => by cases hk }
  live := rfl
  others := rfl
  frames := rfl
  contents := rfl

end Tracks

end VmHistory

/-! ### Frames are counted -/

/-- The number of entries, over the user pages of all live address spaces, that map a
frame. -/
def VmHistory.pteCount (h : VmHistory) (f : Nat) : Nat :=
  hits (h.live ×ˢ Finset.range userPages)
    (fun k => (presentPte h.state k.1 (k.2 * pageSize)).map pteFrame) f

/-- The reference count of a mapped frame is the number of entries that map it. It goes
back to the allocator in the very call that drops the last of them. The free lists are
in order, so nothing is on them twice, and when the last address space is gone all
frames but those of others are free. -/
structure FrameAccounting (frames : Finset Nat) (h : VmHistory) : Prop where
  counted : ∀ f, 0 < h.pteCount f → (h.state.pmm.pages f).refcount = h.pteCount f ∧
    ¬ InFreeBlock h.state.pmm f
  returned : ∀ call h', h.userStep call = some h' → ∀ f, 0 < h.pteCount f →
    (InFreeBlock h'.state.pmm f ↔ h'.pteCount f = 0)
  lists : ∃ outstanding lists, BuddyInvariant ⟨h.state.pmm, outstanding⟩ lists frames
  allFree : h.live = ∅ → ∀ f ∈ frames, (∀ b ∈ h.others, f ∉ b.frames) → InFreeBlock h.state.pmm f
  freePages : h.live = ∅ → h.state.pmm.zone.freePages + ∑ b ∈ h.others, b.size = frames.card

/-- The entries counted are the pages of the view. -/
theorem VmHistory.pteCount_eq_mapCount {V} (hp : Paging h.state A L V)
    (hlive : V.live = h.live) (f : Nat) : h.pteCount f = mapCount h.state V f := by
  rw [mapCount, View.keys, hlive, pteCount]
  refine hits_congr ?_
  rintro ⟨a, v⟩ hk
  obtain ⟨ha, hv⟩ := mem_product.mp hk
  rw [Mapped.presentPte_eq hp (hlive ▸ ha) ((pageOf_mul v).symm ▸ mem_range.mp hv),
    pageOf_mul, frameAt]

namespace VmHistory.Tracks

variable {frames : Finset Nat} {h h' : VmHistory} {p : PrivateMemory} {A : Arena} {L : Ledger}
  {V : View}

section

variable (ht : Tracks frames h p A L V)
include ht

theorem pteCount_eq (f : Nat) : h.pteCount f = L.refs f := by
  rw [ht.exact.exact, pteCount_eq_mapCount ht.exact.toPaging ht.live]

/-- Without address spaces, all that is live belongs to others. -/
theorem live_of_empty (hnone : h.live = ∅) :
    L.tables = ∅ ∧ (∀ f, L.refs f = 0) ∧ A.live = h.others := by
  have htables : L.tables = ∅ := by
    rw [eq_empty_iff_forall_notMem]
    intro t ht'
    obtain ⟨a, l, n, hnode⟩ := (ht.exact.owned t).mpr ht'
    have hlive := ht.exact.node_live hnode
    rw [ht.live, hnone] at hlive
    exact notMem_empty a hlive
  have hrefs : ∀ f, L.refs f = 0 := by
    intro f
    rw [ht.exact.exact, mapCount, View.keys, ht.live, hnone]
    rfl
  refine ⟨htables, hrefs, ?_⟩
  ext b
  rw [ht.exact.accounts.live, Ledger.Holds, htables, hrefs, ht.others]
  simp

theorem accounting : FrameAccounting frames h where
  counted f hf := by
    rw [ht.pteCount_eq] at hf ⊢
    exact ⟨(ht.exact.accounts.counted f hf).2, ht.exact.accounts.counted_not_free hf⟩
  returned call h' hstep f hf := by
    rw [ht.pteCount_eq] at hf
    obtain ⟨huser, hanon, ok, hperf⟩ := userStep_spec hstep
    obtain ⟨A', L', V', ht', hreturn⟩ := ht.step huser hanon hperf
    rw [ht'.pteCount_eq]
    constructor
    · intro hfree
      by_contra hne
      exact ht'.exact.accounts.counted_not_free (Nat.pos_of_ne_zero hne) hfree
    intro hzero
    obtain ⟨htable, hoth⟩ := hreturn f hf hzero
    refine ht'.exact.accounts.free_of_unused ?_ hzero htable ?_
    · rw [ht'.frames, ← ht.frames]
      exact (ht.exact.accounts.frame_range (ht.exact.accounts.counted_live hf)).1
    · rw [ht'.others, hoth, ← ht.others]
      exact ht.exact.accounts.counted_not_others hf
  lists := by
    refine ⟨A.live.toList.map fun b => (pfnToPhys b.base, b.order), ?_⟩
    have htracks : Pmm.Tracks ⟨h.state.pmm, A.live.toList.map fun b => (pfnToPhys b.base, b.order)⟩
        A :=
      ⟨ht.exact.accounts.buddy, ht.exact.total, A.live.toList, A.live.nodup_toList, by simp, rfl⟩
    rw [← ht.frames]
    exact htracks.invariant
  allFree hnone f hf hoth := by
    obtain ⟨htables, hrefs, -⟩ := ht.live_of_empty hnone
    refine ht.exact.accounts.free_of_unused (ht.frames ▸ hf) (hrefs f) ?_ (ht.others ▸ hoth)
    rw [htables]
    exact notMem_empty f
  freePages hnone := by
    obtain ⟨-, -, hlive⟩ := ht.live_of_empty hnone
    rw [ht.exact.accounts.buddy.zonePages, ← hlive, ← ht.frames]
    exact Arena.freePages_add_livePages

end

end VmHistory.Tracks

/-- What every step on anonymous memory of the user half keeps. -/
theorem VmHistory.userRun_tracks (B : VmBoot) {calls}
    (hrun : run VmHistory.userStep B.start calls = some h) :
    ∃ p A L V, h.Tracks B.arena.frames p A L V := by
  refine run_inv (fun h => ∃ p A L V, h.Tracks B.arena.frames p A L V) ?_
    ⟨_, _, _, _, .start B⟩ hrun
  rintro h call h' ⟨p, A, L, V, ht⟩ hstep
  obtain ⟨huser, hanon, ok, hperf⟩ := userStep_spec hstep
  obtain ⟨A', L', V', ht', -⟩ := ht.step huser hanon hperf
  exact ⟨_, A', L', V', ht'⟩

/-- **Frame accounting.** As long as anonymous memory is faulted in, written and freed in
the user half, the reference count of every data frame is the number of entries that
map it, a frame is returned with its last entry, and address spaces leave nothing
behind. -/
theorem frame_accounting (B : VmBoot) {calls : List VmCall} {h : VmHistory}
    (hrun : run VmHistory.userStep B.start calls = some h) : FrameAccounting B.arena.frames h := by
  obtain ⟨p, A, L, V, ht⟩ := VmHistory.userRun_tracks B hrun
  exact ht.accounting

/-- Sixteen free frames and an empty page cache. -/
def smallVmBoot : VmBoot where
  state := smallVm
  arena := oneBlockArena 0x400 4 (by decide)
  buddy := smallVm_buddy
  total := by decide
  window f hf := by
    have := smallVm_frames f hf
    rw [InWindow]
    omega
  cache := rfl

/-- One page of private anonymous memory. -/
def anonymousPage (addr : Nat) : Region where
  start := addr
  stop := addr + pageSize
  flags := { read := true, write := true, anonymous := true }
  file := 0
  fileOffset := 0

/-- A process forks, writes to its copy and unmaps it. -/
def forkAndUnmap : List VmCall :=
  [.create (some 1) (some [anonymousPage 0x7ffffffff000]), .fault 1 0x7ffffffff000 none false,
    .write 1 0x7ffffffff000 fun _ => 5, .clone 1 (some 2) (some []) true,
    .write 1 0x7ffffffff000 fun _ => 7,
    .freePage 1 0x7ffffffff000]

theorem frame_accounting_forkAndUnmap :
    ∃ h, run VmHistory.userStep smallVmBoot.start forkAndUnmap = some h ∧
      h.state.pmm.zone.freePages = 7 ∧ FrameAccounting smallVmBoot.arena.frames h := by
  apply exists_and_of (by decide +kernel)
  intro h hrun _
  exact frame_accounting smallVmBoot hrun

/-- An area in the upper half, where no kernel memory is. -/
def upperHalf : List VmCall :=
  [.create (some 1) (some [anonymousPage 0xffff900000000000]),
    .fault 1 0xffff900000000000 none false, .destroy 1]

/-- `handle_demand_fault` maps the page, and `as_destroy` never looks at the upper half:
the page and its three tables are lost. -/
theorem upperHalf_not_accounted :
    ∃ h, run VmHistory.anonymousStep smallVmBoot.start upperHalf = some h ∧ h.live = ∅ ∧
      h.others = ∅ ∧ h.state.pmm.zone.freePages = 12 ∧
      ¬ FrameAccounting smallVmBoot.arena.frames h := by
  apply exists_and_of₃ (by decide +kernel)
  intro h _ hlive hothers hfree hacc
  have hcount := hacc.freePages hlive
  have hframes : smallVmBoot.arena.frames.card = 16 := by
    simp [smallVmBoot, oneBlockArena, Arena.ofFree, Arena.frames, Block.size]
  rw [hothers, sum_empty, hfree, hframes] at hcount
  omega

/-! ### Memory is private -/

/-- Every address space reads its own memory, and a write leaves what others read. -/
structure Isolated (h : VmHistory) (p : PrivateMemory) : Prop where
  read : ∀ as ∈ h.live, ∀ virt < 2 ^ 47, userRead h.state as virt = privateRead p as virt
  write : ∀ as virt update ok h', virt < 2 ^ 47 →
    h.perform (.write as virt update) = some (ok, h') →
    ∀ b ∈ h.live, b ≠ as → ∀ v < 2 ^ 47, userRead h'.state b v = userRead h.state b v

namespace VmHistory.Tracks

variable {frames : Finset Nat} {h h' : VmHistory} {p : PrivateMemory} {A : Arena} {L : Ledger}
  {V : View}

theorem userRead_eq (ht : Tracks frames h p A L V) (hlive : as ∈ h.live) (hv : virt < 2 ^ 47) :
    userRead h.state as virt = privateRead p as virt := by
  rw [← ht.live] at hlive
  rw [userRead, Mapped.presentPte_eq ht.exact.toPaging hlive (pageOf_user hv), privateRead,
    ← ht.contents, Vm.contents, frameAt]
  cases leaf h.state V (as, pageOf virt) with
  | none => rfl
  | some entry => rfl

theorem isolated (ht : Tracks frames h p A L V) : Isolated h p where
  read as hlive virt hv := ht.userRead_eq hlive hv
  write as virt update ok h' hvirt hstep b hb hne v hv := by
    obtain ⟨A', L', V', ht', -⟩ := ht.write hvirt hstep
    have hlive : h'.live = h.live := by
      obtain ⟨-, ⟨⟩⟩ := ite_eq_some hstep
      rfl
    rw [ht'.userRead_eq (hlive ▸ hb) hv, ht.userRead_eq hb hv, privateRead, privateRead]
    cases ok with
    | false => rfl
    | true =>
      have hself : privateStep p true (.write as virt update) b = p b := update_of_ne hne _ _
      rw [hself]

end VmHistory.Tracks

/-- **Copy-on-write isolation.** In anonymous memory of the user half, after every
interleaving of calls over any tree of clones, each address space reads what it would
read if it had a memory of its own: what it wrote last, or what its parent had when it
was cloned, or zero in a page that was faulted in since. -/
theorem private_memory (B : VmBoot) {calls : List VmCall} {h : VmHistory} {p : PrivateMemory}
    (hrun : run privateRunStep (B.start, fun _ _ => none) calls = some (h, p)) : Isolated h p := by
  have htracks : ∃ A L V, h.Tracks B.arena.frames p A L V := by
    refine run_inv (fun hp : VmHistory × PrivateMemory =>
      ∃ A L V, hp.1.Tracks B.arena.frames hp.2 A L V) ?_ ⟨_, _, _, .start B⟩ hrun
    rintro ⟨h, p⟩ call hp' ⟨A, L, V, ht⟩ hstep
    obtain ⟨hguard, ⟨ok, h'⟩, hperform, rfl⟩ := ite_map_eq_some hstep
    obtain ⟨A', L', V', ht', -⟩ := ht.step hguard.1 hguard.2 hperform
    exact ⟨A', L', V', ht'⟩
  obtain ⟨A, L, V, ht⟩ := htracks
  exact ht.isolated

/-- A process writes and forks, and both write. -/
def forkAndWrite : List VmCall :=
  [.create (some 1) (some [anonymousPage 0x7ffffffff000]), .fault 1 0x7ffffffff000 none false,
    .write 1 0x7ffffffff008 fun _ => 5, .clone 1 (some 2) (some []) true,
    .write 1 0x7ffffffff008 fun _ => 7,
    .write 2 0x7ffffffff010 fun _ => 9]

theorem private_memory_forkAndWrite :
    ∃ h p, run privateRunStep (smallVmBoot.start, fun _ _ => none) forkAndWrite = some (h, p) ∧
      userRead h.state 1 0x7ffffffff008 = some 7 ∧ userRead h.state 2 0x7ffffffff008 = some 5 ∧
      userRead h.state 1 0x7ffffffff010 = some 0 ∧ userRead h.state 2 0x7ffffffff010 = some 9 ∧
      Isolated h p := by
  obtain ⟨⟨h, p⟩, hrun, hone, htwo, hthree, hfour⟩ : ∃ hp,
      run privateRunStep (smallVmBoot.start, fun _ _ => none) forkAndWrite = some hp ∧
        userRead hp.1.state 1 0x7ffffffff008 = some 7 ∧
        userRead hp.1.state 2 0x7ffffffff008 = some 5 ∧
        userRead hp.1.state 1 0x7ffffffff010 = some 0 ∧
        userRead hp.1.state 2 0x7ffffffff010 = some 9 := by decide +kernel
  exact ⟨h, p, hrun, hone, htwo, hthree, hfour, private_memory smallVmBoot hrun⟩

/-- A page is written, freed and faulted in again. -/
def freeAndFault : List VmCall :=
  [.create (some 1) (some [anonymousPage 0x400000]), .fault 1 0x400000 none false,
    .write 1 0x400000 fun _ => 5, .freePage 1 0x400000, .fault 1 0x400000 none false]

/-- What was last written is gone with the page. -/
theorem freeAndFault_reads_zero :
    (run VmHistory.userStep smallVmBoot.start (freeAndFault.take 3)).map
        (fun h => userRead h.state 1 0x400000) = some (some 5) ∧
      (run VmHistory.userStep smallVmBoot.start freeAndFault).map
        (fun h => userRead h.state 1 0x400000) = some (some 0) := by
  decide +kernel

end Kurios.Vm
