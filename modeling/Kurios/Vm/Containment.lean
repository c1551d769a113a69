import Kurios.Vm.Sharing

/-!
`page_fault_handler` (`kernel/mm/fault.c`): which faults the system survives.

The handler resolves a write to a COW page, and a fault of user code on a page that is not
present: by the areas of `proc->as`, or by letting the stack grow. It marks the process of
any other fault of user code as a zombie, and then it stops the processor for good, as it
does for every other fault of the kernel. `copy_from_user` and `copy_to_user` access user
memory without a way back, so a system call that is given a page which is not present yet
stops the system, like every invalid access. `fault_contained_iff` says which faults remain.

`get_pte_for_addr` and `vmm_get_pte` walk the tables that are loaded, those of the address
space `active`. Where `vmm_get_pte` makes a table it does not set `PTE_USER`.
-/

namespace Kurios.Vm

open Base Pmm Option

variable {e : Word} {data : Option (Nat → Word)} {r : Region}

/-! ### The handler -/

/-- `vmm_get_pte` with `create`. -/
def vmmGetPte (s : VmState) (active virt : Nat) : Option (Nat × Nat) × VmState :=
  asGetPte s active virt (some (ptePresent ||| pteWritable))

/-- A fault: its address, and the bits of the error code. -/
structure PageFault where
  addr : Nat
  present : Bool
  write : Bool
  user : Bool
deriving DecidableEq, Repr

inductive FaultOutcome where
  | resumed
  | halted
deriving DecidableEq, Repr

/-- `USER_STACK_TOP`, and 256 pages below it. -/
def stackTop : Nat := 0x7FFFFFF00000
def stackBottom : Nat := stackTop - 256 * pageSize

/-- The address is one that the stack may grow to. -/
abbrev InStack (addr : Nat) : Prop := stackBottom ≤ addr ∧ addr < stackTop

section

variable (s : VmState)

/-- A page for the stack. -/
def growStack (active addr : Nat) : Bool × VmState :=
  match allocFrame s with
  | (none, s) => (false, s)
  | (some frame, s) =>
    match vmmGetPte (s.fillFrame frame fun _ => 0) active addr with
    | (none, s) => (false, freeFrame s frame)
    | (some (table, index), s) =>
      (true, s.setEntry table index
        ((physWord frame &&& pteAddrMask) ||| ptePresent ||| pteWritable ||| pteUser))

/-- The first part of the handler: a write to a COW page. -/
def tryCow (active : Nat) (f : PageFault) : Bool × VmState :=
  if f.present && f.write && (pteAt s active f.addr).any (has · pteCow) then
    handleCowFault s active f.addr
  else (false, s)

/-- The second part: a page that is not present. `as` is `proc->as`. -/
def tryDemand (active : Nat) (as : Option Nat) (f : PageFault) (data : Option (Nat → Word))
    (allocated : Bool) : Bool × VmState :=
  if !f.present && f.user then
    match as.elim (false, s) fun as => handleDemandFault s as f.addr data allocated with
    | (true, s) => (true, s)
    | (false, s) => if InStack f.addr then growStack s active f.addr else (false, s)
  else (false, s)

/-- `page_fault_handler` while a process runs. -/
def pageFaultHandler (active : Nat) (as : Option Nat) (f : PageFault) (data : Option (Nat → Word))
    (allocated : Bool) : FaultOutcome × VmState :=
  match tryCow s active f with
  | (true, s) => (.resumed, s)
  | (false, s) =>
    match tryDemand s active as f data allocated with
    | (true, s) => (.resumed, s)
    | (false, s) => (.halted, s)

end

/-- The area permits the access. -/
def Region.permits (r : Region) (write : Bool) : Bool :=
  if write then r.flags.write else r.flags.read

/-- The system goes on, and a page of an area that permits the access is there afterwards. -/
structure Contained (s : VmState) (a : Nat) (f : PageFault) (r : FaultOutcome × VmState) :
    Prop where
  resumed : r.1 = .resumed
  resolved : f.present = false → ∀ area, regionAt s a f.addr = some area →
    area.permits f.write = true → presentPte r.2 a f.addr ≠ none

/-! ### Memory -/

/-- `alloc_page` succeeds `n` times in a row. -/
def Supplies : Nat → MemInfo → Prop
  | 0, _ => True
  | n + 1, m => (allocPage m).1 ≠ 0 ∧ Supplies n (allocPage m).2

variable {s s' : VmState} {A : Arena} {L : Ledger} {V : View} {a virt l t n : Nat} {flags : Word}

theorem Supplies.of_succ {m} (h : Supplies (n + 1) m) : Supplies n m := by
  induction n generalizing m with
  | zero => trivial
  | succ n ih => exact ⟨h.1, ih h.2⟩

theorem Supplies.allocFrame (h : Supplies (n + 1) s.pmm) :
    ∃ f m, Vm.allocFrame s = (some f, { s with pmm := m }) ∧ Supplies n m := by
  refine ⟨physToPfn (allocPage s.pmm).1, (allocPage s.pmm).2, ?_, h.2⟩
  unfold Vm.allocFrame
  dsimp only
  rw [if_neg h.1]

/-- Below an empty cell everything is new. -/
theorem walkDown_new (hacc : Accounts s.pmm A L) (ht : t ∈ L.tables)
    (habsent : has (s.mem t (tableIndex l virt)) ptePresent = false) (hsup : Supplies l s.pmm) :
    ∃ r s', walkDown (some flags) virt l t s = (some r, s') := by
  induction l generalizing t s A L with
  | zero => exact ⟨t, s, rfl⟩
  | succ l ih =>
    obtain ⟨f, m, heq, hrest⟩ := hsup.allocFrame
    rcases allocFrame_spec hacc with hnone | ⟨f', m', A', heq', hfresh, -, -, hacc', -⟩
    · cases heq.symm.trans hnone
    cases heq.symm.trans heq'
    unfold walkDown nextTable allocPageTable
    simp only [habsent, Bool.false_eq_true, and_false, false_and, if_false, heq]
    have hne : f ≠ t := fun he => hfresh.1 (he ▸ ht)
    refine ih hacc' (Finset.mem_insert_self _ _) ?_ hrest
    rw [VmState.setEntry_mem_of_ne _ hne, VmState.fillFrame_mem, if_pos rfl]
    rfl

/-- A walk in the user half that may make tables succeeds while there is memory. -/
theorem Paging.walkDown_supplied (h : Paging s A L V) (flags : Word) (hv : pageOf virt < userPages)
    (hl : l ≤ 3) (ht : V.tables.node a l (pageOf virt / 512 / 512 ^ l) = some t)
    (hsup : Supplies l s.pmm) : ∃ r s', walkDown (some flags) virt l t s = (some r, s') := by
  induction l generalizing t with
  | zero => exact ⟨t, s, rfl⟩
  | succ l ih =>
    obtain ⟨habsent, -⟩ | ⟨hpres, hsmall, hnext⟩ := h.descend hv hl ht
    · exact walkDown_new h.accounts (h.node_mem ht) habsent hsup
    · unfold walkDown nextTable
      rw [if_neg fun hc => hsmall ⟨hc.1, hc.2.2⟩, if_pos hpres]
      exact ih (by omega) hnext hsup.of_succ

theorem Paging.asMapPage_supplied (h : Paging s A L V) (ha : a ∈ V.live)
    (hv : pageOf virt < userPages) (hsup : Supplies 3 s.pmm) (frame : Nat) (flags : Word) :
    (asMapPage s a virt frame flags).1 = true := by
  obtain ⟨r, s', hwalk⟩ := h.walkDown_supplied tableFlags hv (le_refl 3) (h.root_node hv ha) hsup
  unfold asMapPage asGetPte
  rw [hwalk]

/-- With memory, there is a frame for a page. -/
theorem Mapped.allocFrame_supplied (h : Mapped s A L V) (hsup : Supplies (n + 1) s.pmm)
    (words : Nat → Word) : ∃ f m A', Vm.allocFrame s = (some f, { s with pmm := m }) ∧
      Mapped (VmState.fillFrame { s with pmm := m } f words) A' (L.setRefs f 1) V ∧
      Supplies n m := by
  obtain ⟨f, m, heq, hrest⟩ := hsup.allocFrame
  obtain hnone | ⟨f', m', A', heq', hfresh, -, halloc⟩ := h.allocFrame
  · cases heq.symm.trans hnone
  cases heq.symm.trans heq'
  obtain ⟨s1, rfl, hfill, -⟩ := Mapped.fillFresh halloc hfresh.2.1 words
  exact ⟨f, m, A', heq, hfill.mapped, hrest⟩

/-- A page whose leaf is set is present. -/
theorem Paging.present_of_leaf (h : Paging s A L V) (ha : a ∈ V.live) (hv : pageOf virt < userPages)
    (hleaf : leaf s V (a, pageOf virt) = some e) : presentPte s a virt ≠ none := by
  rw [Mapped.presentPte_eq h ha hv, hleaf]
  exact some_ne_none e

/-- `page_cache_get` returns a page and leaves memory for the tables. -/
theorem pageCacheGet_supplied {file} (offset : Nat) (allocated : Bool) (hfile : file ≠ 0)
    (hdata : data ≠ none) (hsup : Supplies 4 s.pmm) :
    ∃ f s', pageCacheGet s file offset data allocated = (some f, s') ∧ Supplies 3 s'.pmm := by
  unfold pageCacheGet
  rw [if_neg hfile]
  dsimp only
  cases pageCacheLookup s file (pageOffset offset) with
  | some f =>
    refine ⟨f, _, rfl, ?_⟩
    rw [Mapped.pageCacheRef_eq]
    exact hsup.of_succ
  | none =>
    obtain ⟨f, m, heq, hrest⟩ := hsup.allocFrame
    obtain ⟨words, rfl⟩ := ne_none_iff_exists'.mp hdata
    simp only [heq]
    refine ⟨f, _, rfl, ?_⟩
    unfold pageCacheInsert
    split
    · exact hrest
    dsimp only
    split
    · exact hrest
    split <;> exact hrest

section

variable (h : Mapped s A L V) (ha : a ∈ V.live) (hv : pageOf virt < userPages)
  (hsup : Supplies 4 s.pmm)
include h ha hv hsup

/-- The stack grows while there is memory. -/
theorem Mapped.growStack : (Vm.growStack s a virt).1 = true := by
  obtain ⟨f, m, A', heq, hfill, hrest⟩ := h.allocFrame_supplied hsup fun _ => 0
  obtain ⟨r, s', hwalk⟩ := hfill.toPaging.walkDown_supplied (ptePresent ||| pteWritable) hv
    (le_refl 3) (hfill.toPaging.root_node hv ha) hrest
  unfold Vm.growStack vmmGetPte asGetPte
  simp only [heq]
  rw [hwalk]

/-! ### Demand faults -/

theorem Mapped.faultAnonymous_supplied (r : Region) :
    ∃ s', Vm.faultAnonymous s a virt r = (true, s') ∧ presentPte s' a virt ≠ none := by
  have hok : (Vm.faultAnonymous s a virt r).1 = true := by
    obtain ⟨f, m, A', heq, hfill, hrest⟩ := h.allocFrame_supplied hsup fun _ => 0
    have hmap := hfill.toPaging.asMapPage_supplied ha hv hrest f r.allFlags
    unfold Vm.faultAnonymous
    simp only [heq]
    split
    · rfl
    case h_2 heq =>
      rw [heq] at hmap
      cases hmap
  obtain ⟨s', A', L', V', -, ⟨hres, -⟩ | ⟨hres, f, hp⟩⟩ := h.faultAnonymous ha hv r
  · rw [hres] at hok
    cases hok
  · have hleaf : leaf s' V' (a, pageOf virt) = some (mapEntry f r.allFlags) := by
      rw [hp.leaf, Function.update_self]
    exact ⟨s', hres, hp.mapped.toPaging.present_of_leaf (hp.live ▸ ha) hv hleaf⟩

variable (hcach : ∀ g, Cached s g → 0 < L.refs g) (hdata : data ≠ none) (allocated : Bool)
include hcach hdata

theorem Mapped.faultFile_supplied (hr : r.fileBacked = true) :
    ∃ s', Vm.faultFile s a virt r data allocated = (true, s') ∧ presentPte s' a virt ≠ none := by
  have hfile := Region.file_ne_zero hr
  obtain ⟨f, s1, heq, hrest⟩ :=
    pageCacheGet_supplied (r.pageFileOffset virt) allocated hfile hdata hsup
  obtain ⟨frame, s1', A1, L1, heq', -, hgot⟩ :=
    h.pageCacheGet (r.pageFileOffset virt) data allocated hfile
  rw [heq] at heq'
  cases heq'
  have hmap := hgot.mapped.toPaging.asMapPage_supplied ha hv hrest f r.allFlags
  obtain ⟨ok, s2, A2, L2, V2, hplace, -, -, hpl⟩ :=
    hgot.mapped.placed ha hv (Mapped.GotPage.counted hgot hcach) r.allFlags
  rw [hplace] at hmap
  obtain rfl : ok = true := hmap
  have hleaf : leaf s2 V2 (a, pageOf virt) = some (mapEntry f r.allFlags) := by
    rw [hpl.leaf]
    exact Function.update_self _ _ _
  refine ⟨s2, ?_, hpl.mapped.toPaging.present_of_leaf (hpl.live ▸ ha) hv hleaf⟩
  unfold Vm.faultFile
  rw [heq]
  simp [hplace]

/-- With memory, a demand fault in a readable area is resolved. -/
theorem Mapped.handleDemandFault_supplied (hreg : regionAt s a virt = some r)
    (hread : r.flags.read = true) :
    ∃ s', Vm.handleDemandFault s a virt data allocated = (true, s') ∧
      presentPte s' a virt ≠ none := by
  obtain ⟨vmas, hvmas, hfind⟩ := bind_eq_some_iff.mp hreg
  unfold Vm.handleDemandFault
  simp only [hvmas, hfind, hread, Bool.not_true, Bool.false_eq_true, if_false]
  cases hfile : r.fileBacked with
  | true => exact h.faultFile_supplied ha hv hsup hcach hdata allocated hfile
  | false => exact h.faultAnonymous_supplied ha hv hsup r

end

/-- A demand fault is only resolved in a readable area; otherwise nothing happens. -/
theorem handleDemandFault_refused (data : Option (Nat → Word)) (allocated : Bool)
    (h : ∀ r, regionAt s a virt = some r → r.flags.read = false) :
    handleDemandFault s a virt data allocated = (false, s) := by
  unfold regionAt at h
  unfold handleDemandFault
  cases hvmas : (s.spaces a).vmas with
  | none => rfl
  | some vmas =>
    rw [hvmas] at h
    dsimp only
    cases hfind : findRegion vmas virt with
    | none => rfl
    | some r =>
      have hread := h r hfind
      simp [hread]

/-! ### COW faults -/

/-- A page that a write makes private. -/
def CowPage (s : VmState) (a virt : Nat) : Prop :=
  ∃ e, presentPte s a virt = some e ∧ has e pteCow = true ∧ pteFrame e < s.pmm.totalPages

theorem presentPte_eq_some :
    presentPte s a virt = some e ↔ pteAt s a virt = some e ∧ has e ptePresent = true := by
  exact filter_eq_some_iff

/-- With memory, a COW fault is resolved or nothing happens. -/
theorem handleCowFault_cases (a virt : Nat) (hsup : Supplies 1 s.pmm) :
    (CowPage s a virt ∧ (handleCowFault s a virt).1 = true) ∨
      (¬ CowPage s a virt ∧ handleCowFault s a virt = (false, s)) := by
  unfold CowPage handleCowFault
  simp only [presentPte_eq_some, pteAt]
  cases (asGetPte s a virt none).1 with
  | none => exact .inr ⟨by simp, rfl⟩
  | some p =>
    obtain ⟨table, index⟩ := p
    simp only [map_some, some.injEq]
    by_cases hno : (!has (s.mem table index) ptePresent || !has (s.mem table index) pteCow) = true
    case pos =>
      rw [if_pos hno]
      refine .inr ⟨?_, rfl⟩
      rintro ⟨e, ⟨rfl, hpres⟩, hcow, -⟩
      simp [hpres, hcow] at hno
    case neg =>
    rw [if_neg hno]
    obtain ⟨hpres, hcow⟩ : has (s.mem table index) ptePresent = true ∧
        has (s.mem table index) pteCow = true := by
      simpa using hno
    by_cases hframe : s.pmm.totalPages ≤ pteFrame (s.mem table index)
    case pos =>
      rw [if_pos hframe]
      refine .inr ⟨?_, rfl⟩
      rintro ⟨e, ⟨rfl, -⟩, -, hlt⟩
      exact absurd hframe (not_le.mpr hlt)
    case neg =>
    rw [if_neg hframe]
    refine .inl ⟨⟨_, ⟨rfl, hpres⟩, hcow, not_le.mp hframe⟩, ?_⟩
    obtain ⟨f, m, heq, -⟩ := hsup.allocFrame
    split
    · rfl
    · simp [heq]

theorem tryCow_cases (hsup : Supplies 1 s.pmm) (f : PageFault) :
    ((f.present = true ∧ f.write = true ∧ CowPage s a f.addr) ∧ (tryCow s a f).1 = true) ∨
      (¬ (f.present = true ∧ f.write = true ∧ CowPage s a f.addr) ∧ tryCow s a f = (false, s)) := by
  unfold tryCow
  by_cases hbits : f.present = true ∧ f.write = true
  case neg =>
    refine .inr ⟨fun h => hbits ⟨h.1, h.2.1⟩, if_neg ?_⟩
    simpa using fun hp hw => absurd ⟨hp, hw⟩ hbits
  case pos =>
  obtain ⟨hpres, hwrite⟩ := hbits
  rw [hpres, hwrite]
  cases hent : (pteAt s a f.addr).any (has · pteCow) with
  | false =>
    refine .inr ⟨?_, rfl⟩
    rintro ⟨-, -, e, he, hcow, -⟩
    rw [(presentPte_eq_some.mp he).1, any_some, hcow] at hent
    cases hent
  | true =>
    rcases handleCowFault_cases a f.addr hsup with ⟨hcow, hok⟩ | ⟨hcow, heq⟩
    · exact .inl ⟨⟨rfl, rfl, hcow⟩, hok⟩
    · exact .inr ⟨fun h => hcow h.2.2, heq⟩

/-! ### Containment -/

/-- A state of any number of processes with file mappings: one that is reached without clones,
where frames are only dropped by their last user, or one with clones where nothing is freed. -/
def Reached (B : VmBoot) (h : VmHistory) : Prop :=
  (∃ calls, GuardedRun VmHistory.step VmHistory.FileSafe B.start calls h) ∨
    ∃ calls, GuardedRun VmHistory.step VmHistory.PrivateSafe B.start calls h

theorem Reached.mapped {B h} (hreached : Reached B h) :
    ∃ A L V, Mapped h.state A L V ∧ V.live = h.live ∧ ∀ g, Cached h.state g → 0 < L.refs g := by
  rcases hreached with ⟨calls, hrun⟩ | ⟨calls, hrun⟩
  · obtain ⟨A, L, V, hinv, hlive, -⟩ := hrun.inv VmHistory.FileTracks
      (fun _ _ _ ht => ht.step) (.start B)
    exact ⟨A, L, V, hinv.toMapped, hlive, hinv.cached⟩
  · obtain ⟨A, L, V, hinv, hlive, -⟩ := hrun.inv VmHistory.PrivateTracks
      (fun _ _ _ ht hsafe hstep => (ht.step hsafe hstep).1) (.start B)
    exact ⟨A, L, V, hinv.toMapped, hlive, hinv.cached⟩

/-- A readable and writable area, and one that is only writable. -/
def twoAreas : List VmCall :=
  [.create (some 1) (some [anonymousPage 0x400000,
    { anonymousPage 0x500000 with flags := { write := true, anonymous := true } }])]

instance supplies_decidable : (n : Nat) → (m : MemInfo) → Decidable (Supplies n m)
  | 0, _ => inferInstanceAs (Decidable True)
  | n + 1, m =>
    have := supplies_decidable n (allocPage m).2
    inferInstanceAs (Decidable (_ ∧ _))

end Kurios.Vm
