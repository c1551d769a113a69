import Kurios.Areas.Mmap
import Kurios.Vm.KernelHalf

/-!
`sys_munmap` (`kernel/syscall/syscall.c`), on the VMA list and on the page tables.

The pages of the range are unmapped one by one. The VMA list is only changed if the area at
the address is exactly the range: a range that cuts an area, or covers several, loses its
pages and keeps its areas, so that the next access maps them again
(`munmap_keeps_area`). Addresses above the user half are not refused, and alias: the page
tables are walked with 48 of the 64 bits. There is no other fault (`munmap_effect_iff`).

The page fault handlers of `Kurios.Vm` read a list of areas, which here is the one that the
links spell out.
-/

namespace Kurios.Vm

open Base Pmm Areas Option Finset

variable {addr n : Nat} {length : BitVec 64}

/-- The VMA as the page fault handlers read it. -/
def regionOf (a : Area) : Region where
  start := a.start
  stop := a.stop
  flags :=
    { read := a.flags.testBit 0
      write := a.flags.testBit 1
      exec := a.flags.testBit 2
      shared := a.flags.testBit 3
      anonymous := a.flags.testBit 4 }
  file := a.file.getD 0
  fileOffset := a.fileOffset

def regionsOf (s : VmaState) : Option (List Region) :=
  s.nodes.map fun xs => xs.map fun p => regionOf (s.area p)

/-- The memory of a process: the page tables, and the VMA list of its address space. -/
structure UserMemory where
  vm : VmHistory
  areas : VmaHistory

namespace UserMemory

/-- The VMA list changes. -/
def setAreas (m : UserMemory) (as : Nat) (areas : VmaHistory) : UserMemory where
  vm := m.vm.withState (m.vm.state.modifySpace as fun a => { a with vmas := regionsOf areas.state })
  areas := areas

end UserMemory

/-- The loop of `sys_munmap`. -/
def freePages (as addr numPages : Nat) (s : VmState) : VmState :=
  forRange 0 numPages (fun i s => asFreePage s as (u64 (addr + i * pageSize))) s

def UserMemory.freeRange (m : UserMemory) (as addr numPages : Nat) : UserMemory :=
  { m with vm := m.vm.withState (freePages as addr numPages m.vm.state) }

/-- `sys_munmap` of a process whose address space is `as`. -/
def sysMunmap (as : Nat) (m : UserMemory) (addr length : BitVec 64) : Option (Int × UserMemory) :=
  if !isAligned addr.toNat pageSize then some (-22, m)
  else if length = 0 then some (-22, m)
  else
    let length := alignUp length.toNat pageSize
    let m := m.freeRange as addr.toNat (length / pageSize)
    (vmaFind m.areas.state addr.toNat).map fun
      | none => (0, m)
      | some vma =>
        if (m.areas.state.vmas vma).start = addr.toNat ∧
            (m.areas.state.vmas vma).stop = u64 (addr.toNat + length) then
          (0, m.setAreas as ⟨vmaDestroy m.areas.state vma, m.areas.live.erase vma⟩)
        else (0, m)

/-! ### Histories of one process -/

/-- A system call, a page fault, or a store instruction of the process, or an allocation by
others. -/
inductive MemEvent where
  | mmap (c : MmapCall)
  | munmap (addr length : BitVec 64)
  | fault (addr : Nat) (data : Option (Nat → Word)) (allocated : Bool)
  | write (addr : Nat) (update : Word → Word)
  | allocOther (order : Nat)
  | freeOther (block : Block)

namespace UserMemory

/-- A step that is one of `Kurios.Vm`. -/
def vmStep (m : UserMemory) (call : VmCall) : Option UserMemory :=
  (m.vm.step call).map fun vm => { m with vm := vm }

def step (as : Nat) (m : UserMemory) : MemEvent → Option UserMemory
  | .mmap c =>
    if m.areas.Fresh c.alloc then (sysMmap m.areas c).map fun r => m.setAreas as r.2 else none
  | .munmap addr length => (sysMunmap as m addr length).map Prod.snd
  | .fault addr data allocated => m.vmStep (.fault as addr data allocated)
  | .write addr update => m.vmStep (.write as addr update)
  | .allocOther order => m.vmStep (.allocOther order)
  | .freeOther block => m.vmStep (.freeOther block)

/-- A new process, if `as_create` succeeds. -/
def start (B : VmBoot) (as : Nat) (nodes : Nat → Vma) : Option UserMemory :=
  match B.start.perform (.create (some as) (some [])) with
  | some (true, vm) => some ⟨vm, vmaListCreate nodes, []⟩
  | _ => none

/-- Accesses are to the user half, and so are the ranges that are unmapped; the frames of
their pages are neither cached nor mapped at another page. -/
def Careful (as : Nat) (m : UserMemory) : MemEvent → Prop
  | .munmap addr length => addr.toNat + length.toNat ≤ 2 ^ 47 ∧
      ∀ x, addr.toNat ≤ x → x < addr.toNat + alignUp length.toNat pageSize →
        ∀ e, presentPte m.vm.state as x = some e → m.vm.Sole (pteFrame e)
  | .fault addr _ _ | .write addr _ => addr < 2 ^ 47
  | .mmap _ | .allocOther _ | .freeOther _ => True

end UserMemory

/-! ### Freeing a range -/

section Free

variable {s : VmState} {A : Arena} {L : Ledger} {V : View} {as : Nat}

theorem walkDown_pmm (virt l t : Nat) (m : MemInfo) :
    walkDown none virt l t { s with pmm := m } = ((walkDown none virt l t s).1,
      { s with pmm := m }) := by
  induction l generalizing t with
  | zero => rfl
  | succ l ih =>
    rw [walkDown, walkDown]
    by_cases hskip : l + 1 ≠ 3 ∧ has (s.mem t (tableIndex (l + 1) virt)) ptePresent = true ∧
        has (s.mem t (tableIndex (l + 1) virt)) pteHuge = true
    · rw [if_pos hskip, if_pos hskip]
    rw [if_neg hskip, if_neg hskip, nextTable, nextTable]
    by_cases hpres : has (s.mem t (tableIndex (l + 1) virt)) ptePresent = true
    · rw [if_pos hpres, if_pos hpres]
      exact ih _
    · rw [if_neg hpres, if_neg hpres]

/-- The page tables are walked in the same way. -/
def SamePage (x y : Nat) : Prop := pageOf (x % 2 ^ 48) = pageOf (y % 2 ^ 48)

theorem samePage_mod (x : Nat) : SamePage x (x % 2 ^ 48) := by
  rw [SamePage, Nat.mod_mod]

theorem samePage_u64 (x : Nat) : SamePage (u64 x) x := by
  unfold SamePage u64
  rw [Nat.mod_mod_of_dvd _ (by decide)]

theorem SamePage.tableIndex {x y l} (h : SamePage x y) (hl : l ≤ 3) :
    tableIndex l x = tableIndex l y := by
  rw [tableIndex_eq, tableIndex_eq]
  simp only [SamePage, pageOf, pageSize] at *
  interval_cases l <;> omega

theorem SamePage.walkDown {x y l} (h : SamePage x y) (hl : l ≤ 3) (t : Nat) (s : VmState) :
    walkDown none x l t s = walkDown none y l t s := by
  induction l generalizing t s with
  | zero => rfl
  | succ l ih =>
    rw [Vm.walkDown, Vm.walkDown, h.tableIndex hl]
    simp only [ih (Nat.le_of_succ_le hl)]

theorem SamePage.asGetPte {x y} (h : SamePage x y) (s : VmState) (as : Nat) :
    asGetPte s as x none = asGetPte s as y none := by
  rw [Vm.asGetPte, Vm.asGetPte, h.walkDown (le_refl 3), h.tableIndex zero_le]

theorem SamePage.presentPte {x y} (h : SamePage x y) (s : VmState) (as : Nat) :
    presentPte s as x = presentPte s as y := by
  rw [Vm.presentPte, Vm.presentPte, pteAt, pteAt, h.asGetPte]

/-- A page that is mapped is cleared, another one stays as it is. -/
theorem asFreePage_cases (s : VmState) (as x : Nat) :
    (presentPte s as x = none ∧ asFreePage s as x = s) ∨
      presentPte s as x ≠ none ∧ ∃ t m, (walkDown none x 3 (s.root as) s).1 = some t ∧
        asFreePage s as x = { s.setEntry t (tableIndex 0 x) 0 with pmm := m } := by
  have hwalk : _ = ((walkDown none x 3 (s.root as) s).1, s) := walkDown_pmm x 3 (s.root as) s.pmm
  unfold presentPte pteAt asFreePage asUnmapPage asGetPte
  rw [hwalk]
  cases (walkDown none x 3 (s.root as) s).1 with
  | none => exact .inl ⟨rfl, rfl⟩
  | some t =>
    dsimp only
    cases hpres : has (s.mem t (tableIndex 0 x)) ptePresent with
    | false => exact .inl ⟨by simp [hpres], rfl⟩
    | true =>
      rw [if_pos rfl]
      dsimp only
      refine .inr ⟨by simp [hpres], t, ?_⟩
      split
      · exact ⟨s.pmm, rfl, rfl⟩
      · exact ⟨_, rfl, rfl⟩

/-- Entries are cleared: a walk finds nothing, or the entry that it found before. -/
theorem entryBelow_cleared {mem} (hmem : ∀ t i, mem t i = s.mem t i ∨ mem t i = 0) (x l t : Nat) :
    ((entryBelow mem x l t).filter fun e => has e ptePresent) = none ∨
      entryBelow mem x l t = entryBelow s.mem x l t ∧
        ∀ u, (walkDown none x l t s).1 = some u → mem u (tableIndex 0 x) ≠ 0 := by
  have hzero : has (0#64) ptePresent = false := by decide
  induction l generalizing t with
  | zero =>
    rw [entryBelow, entryBelow, walkDown]
    by_cases hcleared : mem t (tableIndex 0 x) = 0
    · exact .inl (by simp [hcleared, hzero])
    · refine .inr ⟨congrArg some ((hmem _ _).resolve_right hcleared), fun u hu => ?_⟩
      rwa [← some.inj hu]
  | succ l ih =>
    rw [entryBelow, entryBelow, walkDown]
    rcases hmem t (tableIndex (l + 1) x) with hsame | hcleared
    case inr => exact .inl (by simp [hcleared, hzero])
    rw [hsame, nextTable]
    cases hpres : has (s.mem t (tableIndex (l + 1) x)) ptePresent with
    | false => exact .inl rfl
    | true =>
    by_cases hhuge : l + 1 ≠ 3 ∧ has (s.mem t (tableIndex (l + 1) x)) pteHuge = true
    · exact .inl (by simp [hhuge])
    · simp only [Bool.not_true, Bool.false_eq_true, if_false, if_neg hhuge, if_true, true_and]
      exact ih _

/-- The page is not mapped afterwards, and other pages not at other entries. -/
theorem presentPte_asFreePage (s : VmState) (as x y : Nat) :
    presentPte (asFreePage s as x) as y = none ∨
      presentPte (asFreePage s as x) as y = presentPte s as y ∧ ¬ SamePage x y := by
  obtain ⟨hnone, heq⟩ | ⟨-, t, m, hwalk, heq⟩ := asFreePage_cases s as x <;> rw [heq]
  · by_cases hsame : SamePage x y
    · exact .inl (hsame.presentPte s as ▸ hnone)
    · exact .inr ⟨rfl, hsame⟩
  have hmem : ∀ u i, (s.setEntry t (tableIndex 0 x) 0).mem u i = s.mem u i ∨
      (s.setEntry t (tableIndex 0 x) 0).mem u i = 0 := by
    intro u i
    rw [s.setEntry_mem]
    split
    · exact .inr rfl
    · exact .inl rfl
  unfold presentPte
  rw [pteAt_entryBelow, pteAt_entryBelow]
  refine (entryBelow_cleared hmem y 3 (s.root as)).imp id fun ⟨hentry, hkept⟩ =>
    ⟨congrArg _ hentry, fun hsame => ?_⟩
  rw [hsame.walkDown (le_refl 3)] at hwalk
  refine hkept t hwalk ?_
  rw [← hsame.tableIndex zero_le]
  simp [VmState.setEntry]

/-- The loop of `sys_munmap` comes to the entry of the page. -/
def Visits (addr numPages x : Nat) : Prop := ∃ i < numPages, SamePage (addr + i * pageSize) x

/-- What the loop comes to is not mapped afterwards. -/
theorem presentPte_freePages (s : VmState) (as addr n y : Nat) :
    presentPte (freePages as addr n s) as y = none ∨
      presentPte (freePages as addr n s) as y = presentPte s as y ∧ ¬ Visits addr n y := by
  refine forRange_inv (fun i t => presentPte t as y = none ∨
    presentPte t as y = presentPte s as y ∧ ¬ Visits addr i y) zero_le
    (.inr ⟨rfl, fun ⟨_, hi, _⟩ => Nat.not_lt_zero _ hi⟩) fun i t _ _ hinv => ?_
  obtain hnone | ⟨hsame, hother⟩ := presentPte_asFreePage t as (u64 (addr + i * pageSize)) y
  · exact .inl hnone
  rw [hsame]
  refine hinv.imp id fun ⟨hkept, hnot⟩ => ⟨hkept, fun ⟨j, hj, hpage⟩ => ?_⟩
  obtain hlt | rfl := Nat.lt_succ_iff_lt_or_eq.mp hj
  · exact hnot ⟨j, hlt, hpage⟩
  · exact hother ((samePage_u64 _).trans hpage)

/-- The allocator apart, the loop clears leaves that it comes to, if it comes to no page of the
kernel half that is mapped. -/
theorem freePages_spec (h : Paging s A L V) (ha : as ∈ V.live)
    (huser : ∀ i < n, presentPte s as (addr + i * pageSize) ≠ none →
      (addr + i * pageSize) % 2 ^ 48 < 2 ^ 47) :
    ∃ u m, freePages as addr n s = { u with pmm := m } ∧ Paging u A L V ∧
      (∀ k, leaf u V k = leaf s V k ∨ leaf u V k = none ∧
        ∃ i < n, k = (as, pageOf ((addr + i * pageSize) % 2 ^ 48))) ∧
      u.cache = s.cache ∧ SameUpper A.frames V.live s u := by
  induction n with
  | zero => exact ⟨s, s.pmm, rfl, h, fun _ => .inl rfl, rfl, .refl s⟩
  | succ n ih =>
  obtain ⟨u, m, heq, hu, hleaf, hcache, hupper⟩ := ih fun i hi => huser i (Nat.lt_succ_of_lt hi)
  have hleaf' : ∀ k, leaf u V k = leaf s V k ∨ leaf u V k = none ∧
      ∃ i < n + 1, k = (as, pageOf ((addr + i * pageSize) % 2 ^ 48)) := fun k =>
    (hleaf k).imp id fun ⟨hnone, i, hi, hk⟩ => ⟨hnone, i, Nat.lt_succ_of_lt hi, hk⟩
  have hpage : SamePage (u64 (addr + n * pageSize)) ((addr + n * pageSize) % 2 ^ 48) :=
    (samePage_u64 _).trans (samePage_mod _)
  have hkept := presentPte_freePages s as addr n (addr + n * pageSize)
  rw [freePages, forRange_succ zero_le, ← freePages]
  obtain ⟨-, hfree⟩ | ⟨hmapped, t, m', hwalk, hfree⟩ :=
    asFreePage_cases (freePages as addr n s) as (u64 (addr + n * pageSize)) <;> rw [hfree]
  · exact ⟨u, m, heq, hu, hleaf', hcache, hupper⟩
  -- A page that is still mapped was so before, and is one of the user half.
  rw [(samePage_u64 _).presentPte] at hmapped
  have hlow := huser n (lt_add_one n) ((hkept.resolve_left hmapped).1 ▸ hmapped)
  rw [hpage.walkDown (le_refl 3), heq, walkDown_pmm] at hwalk
  have ht : V.tables.node as 0 (pageOf ((addr + n * pageSize) % 2 ^ 48) / 512) = some t := by
    have hv := pageOf_user hlow
    have hsame := hu.walkDown_none hv (le_refl 3) (hu.root_node hv ha)
    exact (congrArg Prod.fst hsame).symm.trans hwalk
  rw [hpage.tableIndex zero_le, tableIndex_eq, pow_zero, Nat.div_one, heq]
  refine ⟨u.setEntry t (pageOf ((addr + n * pageSize) % 2 ^ 48) % 512) 0, m', rfl,
    hu.setLeaf ht 0, fun k => ?_, hcache, hupper.trans (hu.setLeaf_upper ht _ 0)⟩
  rw [hu.leaf_setLeaf ht 0]
  by_cases hk : k = (as, pageOf ((addr + n * pageSize) % 2 ^ 48))
  · rw [hk, Function.update_self]
    exact .inr ⟨rfl, n, lt_add_one n, rfl⟩
  · rw [Function.update_of_ne hk]
    exact hleaf' k

section

variable (huser : addr + n * pageSize ≤ 2 ^ 47)
include huser

/-- The addresses of the loop. -/
theorem range_page {i} (hi : i < n) :
    u64 (addr + i * pageSize) = addr + i * pageSize ∧
      pageOf (addr + i * pageSize) = pageOf addr + i ∧
        pageOf (addr + i * pageSize) < userPages := by
  have hlt : addr + i * pageSize < 2 ^ 47 := by
    simp only [pageSize] at huser ⊢
    omega
  refine ⟨u64_of_lt (by omega), ?_, pageOf_user hlt⟩
  simp only [pageOf, pageSize]
  omega

theorem range_low {i} (hi : i < n) : (addr + i * pageSize) % 2 ^ 48 < 2 ^ 47 := by
  simp only [pageSize] at huser ⊢
  omega

/-- Pages are freed whose frames nobody else uses. -/
theorem FileInv.freePages (h : FileInv s A L V) (ha : as ∈ V.live)
    (hsole : ∀ i < n, ∀ f, frameAt s V (as, pageOf addr + i) = some f →
      ¬ Cached s f ∧ mapCount s V f ≤ 1) :
    ∃ A' L', FileInv (freePages as addr n s) A' L' V ∧ L'.others = L.others ∧
      A'.frames = A.frames := by
  induction n with
  | zero => exact ⟨A, L, h, rfl, rfl⟩
  | succ n ih =>
    have hprev : addr + n * pageSize ≤ 2 ^ 47 := by
      have hmul : n * pageSize ≤ (n + 1) * pageSize := Nat.mul_le_mul_right _ (Nat.le_succ n)
      exact (Nat.add_le_add_left hmul addr).trans huser
    obtain ⟨A1, L1, hinv, hoth, hfrs⟩ := ih hprev fun i hi => hsole i (by omega)
    obtain ⟨u, m, hu, -, hleaf, hcache, -⟩ :=
      freePages_spec h.toPaging ha fun i hi _ => range_low hprev hi
    obtain ⟨hpage, hpageOf, hv⟩ := range_page huser (lt_add_one n)
    -- What is still mapped was mapped before.
    have hsub : ∀ k f, frameAt (Vm.freePages as addr n s) V k = some f →
        frameAt s V k = some f := by
      intro k f hk
      rw [hu] at hk
      have hk : (leaf u V k).map pteFrame = some f := hk
      rcases hleaf k with heq | ⟨hnone, -⟩
      · rwa [heq] at hk
      · rw [hnone] at hk
        cases hk
    have hsame : (Vm.freePages as addr n s).cache = s.cache := by
      rw [hu]
      exact hcache
    obtain ⟨A2, L2, hinv2, hothers2, hframes2⟩ := hinv.asFreePage ha hv fun f hf => by
      rw [hpageOf] at hf
      obtain ⟨hcach, hcnt⟩ := hsole n (lt_add_one n) f (hsub _ f hf)
      constructor
      · rwa [Cached, hsame]
      · exact (card_le_card (monotone_filter_right _ fun k _ => hsub k f)).trans hcnt
    refine ⟨A2, L2, ?_, hothers2.trans hoth, hframes2.trans hfrs⟩
    rw [Vm.freePages, forRange_succ zero_le, hpage]
    exact hinv2

end

end Free

/-! ### Every history -/

namespace UserMemory

/-- What accounts for the memory of a process: the page tables and the kernel half, and the
nodes of the VMA list. -/
structure Accounted (B : VmBoot) (as : Nat) (m : UserMemory) (A : Arena) (L : Ledger) (V : View)
    (xs : List Nat) : Prop where
  files : FileInv m.vm.state A L V
  live : V.live = m.vm.live
  others : L.others = m.vm.others
  frames : A.frames = B.arena.frames
  space : as ∈ m.vm.live
  kernel : KernelHalf B m.vm.state m.vm.live
  list : m.areas.Inv xs

variable {B : VmBoot} {as : Nat} {m m' : UserMemory} {A : Arena} {L : Ledger} {V : View}
  {xs : List Nat}

theorem vmStep_eq_some {call} (h : m.vmStep call = some m') :
    ∃ ok vm, m.vm.perform call = some (ok, vm) ∧ m' = { m with vm := vm } := by
  obtain ⟨vm, hvm, rfl⟩ := map_eq_some_iff.mp h
  obtain ⟨⟨ok, vm'⟩, hperf, rfl⟩ := map_eq_some_iff.mp hvm
  exact ⟨ok, vm', hperf, rfl⟩

theorem modifySpace_vmas_root (s : VmState) (a b : Nat) (vmas : Option (List Region)) :
    (s.modifySpace a fun x => { x with vmas := vmas }).root b = s.root b := by
  exact congrArg pteFrame (s.modifySpace_congr AddressSpace.cr3 (by intro; rfl) a b)

section

variable (h : Accounted B as m A L V xs)
include h

theorem Accounted.setAreas {areas ys} (hareas : areas.Inv ys) :
    Accounted B as (m.setAreas as areas) A L V ys where
  files := h.files.kept (h.files.toMapped.setVmas as _) (.refl _) h.files.one h.files.cached
  __ := h
  kernel := by
    apply h.kernel.sameUpper
    exact ⟨fun _ _ => rfl, fun _ _ _ _ => rfl, fun b _ => modifySpace_vmas_root _ as b _, rfl⟩
  list := hareas

theorem Accounted.fault {data allocated} (huser : addr < 2 ^ 47)
    (hstep : m.vmStep (.fault as addr data allocated) = some m') :
    ∃ A' L' V' ys, Accounted B as m' A' L' V' ys := by
  obtain ⟨ok, vm, hperf, rfl⟩ := vmStep_eq_some hstep
  obtain ⟨hin, -, rfl, rfl⟩ := VmHistory.perform_fault hperf
  have ha : as ∈ V.live := h.live ▸ hin
  obtain ⟨ok, s', A', L', V', heq, hinv, hlive, hoth, hfrs, hupper⟩ :=
    h.files.handleDemandFault ha (pageOf_user huser) data allocated
  rw [heq]
  rw [h.frames, h.live] at hupper
  exact ⟨A', L', V', xs, hinv, hlive.trans h.live, hoth.trans h.others, hfrs.trans h.frames,
    h.space, h.kernel.sameUpper hupper, h.list⟩

theorem Accounted.write {update} (huser : addr < 2 ^ 47)
    (hstep : m.vmStep (.write as addr update) = some m') :
    ∃ A' L' V' ys, Accounted B as m' A' L' V' ys := by
  obtain ⟨ok, vm, hperf, rfl⟩ := vmStep_eq_some hstep
  obtain ⟨hin, rfl, rfl⟩ := VmHistory.perform_write hperf
  have ha : as ∈ V.live := h.live ▸ hin
  obtain heq | ⟨s', A', L', old, g, entry, heq, hupper, -, hw⟩ :=
    h.files.toMapped.userWrite ha (pageOf_user huser) update
  · rw [heq]
    exact ⟨A, L, V, xs, h⟩
  rw [heq]
  rw [h.frames, h.live] at hupper
  exact ⟨A', L', V, xs, h.files.written hw, h.live, hw.others.trans h.others,
    hw.machine.frames.trans h.frames, h.space, h.kernel.sameUpper hupper, h.list⟩

theorem Accounted.others_step {call} (hcall : call.ofOthers = true)
    (hstep : m.vmStep call = some m') : ∃ A' L' V' ys, Accounted B as m' A' L' V' ys := by
  obtain ⟨ok, vm, hperf, rfl⟩ := vmStep_eq_some hstep
  obtain ⟨pmm, A', others, rfl, hmach, hacc⟩ :=
    VmHistory.perform_others h.files.accounts h.files.total h.others hcall hperf
  exact ⟨A', _, V, xs, h.files.others_move hmach hacc, h.live, rfl,
    hmach.frames.trans h.frames, h.space, h.kernel.sameUpper (.of_mem rfl rfl rfl), h.list⟩

end

/-- A range of whole pages. -/
theorem range_pages {length} (haddr : isAligned addr pageSize = true)
    (huser : addr + length ≤ 2 ^ 47) :
    addr % 4096 = 0 ∧ alignUp length pageSize / pageSize * pageSize = alignUp length pageSize ∧
      addr + alignUp length pageSize ≤ 2 ^ 47 := by
  have hmod : addr % 4096 = 0 := Nat.mod_eq_zero_of_dvd ((isAligned_two_pow addr 12).mp haddr)
  have hsum : u64 (length + 4095) = length + 4095 := u64_of_lt (by omega)
  rw [alignUp_pageSize, hsum]
  refine ⟨hmod, ?_, by omega⟩
  rw [pageSize, Nat.mul_div_cancel _ (by decide)]

variable {addr : BitVec 64}

/-- What a call that succeeds does. -/
theorem sysMunmap_success (hinv : m.areas.Inv xs)
    (hcall : sysMunmap as m addr length = some (0, m')) :
    isAligned addr.toNat pageSize = true ∧
      let size := alignUp length.toNat pageSize
      let freed := m.freeRange as addr.toNat (size / pageSize)
      (m' = freed ∧ ∀ p ∈ xs, (m.areas.state.area p).start = addr.toNat →
        (m.areas.state.area p).stop ≠ u64 (addr.toNat + size)) ∨
      ∃ p ∈ xs, (m.areas.state.area p).start = addr.toNat ∧
        (m.areas.state.area p).stop = u64 (addr.toNat + size) ∧
        m' = freed.setAreas as ⟨vmaDestroy m.areas.state p, m.areas.live.erase p⟩ := by
  unfold sysMunmap at hcall
  split at hcall
  · cases hcall
  case isFalse halign =>
  split at hcall
  · cases hcall
  refine ⟨by simpa using halign, ?_⟩
  have hareas : ∀ n, (m.freeRange as addr.toNat n).areas = m.areas := fun _ => rfl
  dsimp only at hcall
  rw [hareas, hinv.list.vmaFind_eq, map_some] at hcall
  -- An area that starts at the address contains it.
  have hcont : ∀ p ∈ xs, (m.areas.state.area p).start = addr.toNat →
      (m.areas.state.area p).start ≤ addr.toNat ∧ addr.toNat < (m.areas.state.area p).stop := by
    intro p hp hstart
    have hnonempty := (hinv.list.valid p hp).nonempty
    omega
  cases hfind : xs.find? fun p =>
      decide ((m.areas.state.area p).start ≤ addr.toNat ∧
        addr.toNat < (m.areas.state.area p).stop) with
  | none =>
    rw [hfind] at hcall
    left
    refine ⟨(Prod.mk.inj (some.inj hcall)).2.symm, fun p hp hstart _ => ?_⟩
    have hsome := hinv.list.find_contains_iff.mpr ⟨hp, hcont p hp hstart⟩
    rw [hfind] at hsome
    cases hsome
  | some p =>
    rw [hfind] at hcall
    obtain ⟨hp, hpc⟩ := hinv.list.find_contains_iff.mp hfind
    dsimp only at hcall
    split at hcall
    case isTrue hexact =>
      exact .inr ⟨p, hp, hexact.1, hexact.2, (Prod.mk.inj (some.inj hcall)).2.symm⟩
    case isFalse hexact =>
    left
    refine ⟨(Prod.mk.inj (some.inj hcall)).2.symm, fun q hq hstart hstop => ?_⟩
    obtain rfl := hinv.list.eq_of_contains hq hp (hcont q hq hstart) hpc
    exact hexact ⟨hstart, hstop⟩

theorem Accounted.munmap (h : Accounted B as m A L V xs)
    (hcare : Careful as m (.munmap addr length)) {r}
    (hcall : sysMunmap as m addr length = some (r, m')) :
    ∃ A' L' V' ys, Accounted B as m' A' L' V' ys := by
  have hzero : r = 0 ∨ m' = m := by
    unfold sysMunmap at hcall
    iterate 2
      split at hcall
      · exact .inr (Prod.mk.inj (some.inj hcall)).2.symm
    obtain ⟨found, -, hfound⟩ := map_eq_some_iff.mp hcall
    left
    cases found with
    | none => exact (Prod.mk.inj hfound).1.symm
    | some p =>
      dsimp only at hfound
      split at hfound <;> exact (Prod.mk.inj hfound).1.symm
  rcases hzero with rfl | rfl
  case inr => exact ⟨A, L, V, xs, h⟩
  obtain ⟨halign, hcases⟩ := sysMunmap_success h.list hcall
  obtain ⟨huser, hsole⟩ := hcare
  obtain ⟨hmod, hsize, hend⟩ := range_pages halign huser
  set size := alignUp length.toNat pageSize with hsizeDef
  have ha : as ∈ V.live := h.live ▸ h.space
  have hrng : addr.toNat + size / pageSize * pageSize ≤ 2 ^ 47 := by
    rw [hsize]
    exact hend
  obtain ⟨A', L', hinv, hoth, hfrs⟩ := h.files.freePages hrng ha fun i hi f hf => by
    have hx : pageOf (addr.toNat + i * pageSize) = pageOf addr.toNat + i := by
      simp only [pageOf, pageSize]
      omega
    have hlt : addr.toNat + i * pageSize < addr.toNat + size := by
      have hmul : (i + 1) * pageSize ≤ size / pageSize * pageSize := Nat.mul_le_mul_right _ hi
      simp only [pageSize] at hmul ⊢
      omega
    obtain ⟨e, hleaf, rfl⟩ := map_eq_some_iff.mp hf
    have hpte : presentPte m.vm.state as (addr.toNat + i * pageSize) = some e := by
      rw [Mapped.presentPte_eq h.files.toPaging ha (pageOf_user (by omega)), hx, hleaf]
    have hone := hsole _ (by omega) hlt e hpte
    rwa [VmHistory.Sole, VmHistory.pteCount_eq_mapCount h.files.toPaging h.live] at hone
  obtain ⟨u, pmm, hu, -, -, -, hupper⟩ :=
    freePages_spec h.files.toPaging ha fun i hi _ => range_low hrng hi
  have hfreed : Accounted B as (m.freeRange as addr.toNat (size / pageSize)) A' L' V xs := by
    refine ⟨hinv, h.live, hoth.trans h.others, hfrs.trans h.frames, h.space, ?_, h.list⟩
    rw [h.frames, h.live] at hupper
    have hpmm : SameUpper B.arena.frames m.vm.live u { u with pmm := pmm } := .of_mem rfl rfl rfl
    rw [← hu] at hpmm
    exact (h.kernel.sameUpper hupper).sameUpper hpmm
  rcases hcases with ⟨rfl, -⟩ | ⟨p, hp, -, -, rfl⟩
  · exact ⟨A', L', V, xs, hfreed⟩
  · exact ⟨A', L', V, xs.erase p, hfreed.setAreas ⟨h.list.list.destroy hp, h.list.perm.erase p⟩⟩

/-- One careful event. -/
theorem Accounted.step (h : Accounted B as m A L V xs) {e} (hcare : Careful as m e)
    (hstep : m.step as e = some m') : ∃ A' L' V' ys, Accounted B as m' A' L' V' ys := by
  cases e with
  | mmap c =>
    obtain ⟨hfresh, r, hr, rfl⟩ := ite_map_eq_some hstep
    obtain ⟨code, heq⟩ | ⟨addr, file, vma, areas, l, r', heq, -, -, -, hareas, -⟩ :=
      h.list.sysMmap hfresh <;> obtain rfl := some.inj (heq.symm.trans hr)
    · exact ⟨A, L, V, xs, h.setAreas h.list⟩
    · exact ⟨A, L, V, _, h.setAreas hareas⟩
  | munmap addr length =>
    obtain ⟨⟨r, m1⟩, hcall, rfl⟩ := map_eq_some_iff.mp hstep
    exact h.munmap hcare hcall
  | fault addr data allocated => exact h.fault hcare hstep
  | write addr update => exact h.write hcare hstep
  | allocOther | freeOther => exact h.others_step rfl hstep

theorem Accounted.start (hB : B.KernelApart) {nodes}
    (hstart : start B as nodes = some m) : ∃ A L V xs, Accounted B as m A L V xs := by
  unfold UserMemory.start at hstart
  split at hstart
  case h_2 => cases hstart
  case h_1 vm hperf =>
  cases hstart
  obtain ⟨-, hok, rfl⟩ := VmHistory.perform_create hperf
  have hnew : ∀ a ∈ some as, a ∉ (∅ : Finset Nat) := fun a _ => notMem_empty a
  obtain heq | ⟨a, s', A', L', V', ⟨⟩, heq, hc⟩ :=
    (FileInv.start B).toPaging.asCreate_spec (some as) (some []) hnew
  · rw [heq] at hok
    cases hok
  have hkernel : KernelHalf B s' {as} := .asCreate hB heq
  refine ⟨A', L', V', [], ?_⟩
  rw [heq]
  exact ⟨(FileInv.start B).created hc, hc.live, hc.others, hc.machine.frames,
    mem_insert_self as ∅, hkernel, ⟨VmaInv.empty nodes, List.Perm.nil⟩⟩

end UserMemory

/-! ### The effect -/

/-- The addresses that the processor translates. -/
def Canonical (x : Nat) : Prop := x < 2 ^ 47 ∨ 2 ^ 64 - 2 ^ 47 ≤ x ∧ x < 2 ^ 64

/-- The pages of the range `[lo, hi)` are not mapped; other pages of the user half keep their
entries, and those of the kernel half theirs. -/
@[mk_iff]
structure PagesUnmapped (as lo hi : Nat) (s s' : VmState) : Prop where
  pages : ∀ x, Canonical x → lo ≤ x → x < hi → presentPte s' as x = none
  otherPages : ∀ x < 2 ^ 47, ¬ (lo ≤ x ∧ x < hi) → presentPte s' as x = presentPte s as x
  kernelPages : ∀ x, 2 ^ 64 - 2 ^ 47 ≤ x → x < 2 ^ 64 → pteAt s' as x = pteAt s as x

/-- From `m` to `m'`, the range `[lo, hi)` was unmapped and nothing else changed: moreover no
area covers the range, and other addresses keep their areas. -/
structure Unmapped (as lo hi : Nat) (m m' : UserMemory) : Prop extends
    PagesUnmapped as lo hi m.vm.state m'.vm.state where
  areas : ∀ x, lo ≤ x → x < hi → m'.areas.state.areaAt x = none
  otherAreas : ∀ x, ¬ (lo ≤ x ∧ x < hi) → m'.areas.state.areaAt x = m.areas.state.areaAt x

/-- The pages that are mapped and that the loop over `numPages` pages comes to are those of the
range `[lo, hi)`, and none of the kernel half is. -/
def Unaliased (s : VmState) (as lo numPages hi : Nat) : Prop :=
  ∀ x, Canonical x → presentPte s as x ≠ none →
    (Visits lo numPages x ↔ lo ≤ x ∧ x < hi) ∧ (lo ≤ x → x < hi → x < 2 ^ 47)

/-- A length that is 2^64 in whole pages is rounded to 0. -/
theorem alignUp_cases (length : BitVec 64) :
    alignUp length.toNat pageSize = pageRounded length.toNat ∨
      alignUp length.toNat pageSize = 0 ∧ pageRounded length.toNat = 2 ^ 64 := by
  have hlt := length.isLt
  rw [alignUp_pageSize, pageRounded, u64]
  omega

section

variable {s : VmState} {as lo hi : Nat}

theorem PagesUnmapped.unaliased (h : PagesUnmapped as lo hi s (freePages as lo n s))
    (hmod : lo % 4096 = 0) (hsize : n * pageSize = hi - lo ∨ n = 0) : Unaliased s as lo n hi := by
  intro x hx hmapped
  have hkernel : 2 ^ 47 ≤ x → presentPte (freePages as lo n s) as x ≠ none := by
    intro hge
    obtain ⟨hlo, hhi⟩ := hx.resolve_left (not_lt.mpr hge)
    rwa [presentPte, h.kernelPages x hlo hhi]
  refine ⟨⟨fun hvisit => ?_, fun hin => ?_⟩, fun hlo hhi => ?_⟩
  · by_contra hout
    have hnone := (presentPte_freePages s as lo n x).resolve_right fun hc => hc.2 hvisit
    rcases Nat.lt_or_ge x (2 ^ 47) with hlt | hge
    · exact hmapped ((h.otherPages x hlt hout).symm.trans hnone)
    · exact hkernel hge hnone
  · obtain ⟨hlo, hhi⟩ := hin
    rcases hsize with hsize | rfl
    · refine ⟨(x - lo) / pageSize, ?_, ?_⟩ <;> simp only [SamePage, pageOf, pageSize] at * <;> omega
    · exact absurd (h.pages x hx hlo hhi) hmapped
  · by_contra hge
    exact hkernel (not_lt.mp hge) (h.pages x hx hlo hhi)

/-- A mapped page that the loop comes to is one of the user half. -/
theorem Unaliased.low (h : Unaliased s as lo n hi) {i} (hin : i < n)
    (hmapped : presentPte s as (lo + i * pageSize) ≠ none) :
    (lo + i * pageSize) % 2 ^ 48 < 2 ^ 47 := by
  by_contra hge
  -- its address in the kernel half
  have hsame : SamePage (lo + i * pageSize) ((lo + i * pageSize) % 2 ^ 48 + (2 ^ 64 - 2 ^ 48)) := by
    simp only [SamePage, pageOf, pageSize]
    omega
  obtain ⟨hvisit, huser⟩ := h _ (.inr ⟨by omega, by omega⟩) (hsame.presentPte s as ▸ hmapped)
  obtain ⟨hlo, hhi⟩ := hvisit.mp ⟨i, hin, hsame⟩
  exact absurd (huser hlo hhi) (by omega)

end

namespace UserMemory

variable {B : VmBoot} {as : Nat} {m m' : UserMemory} {A : Arena} {L : Ledger} {V : View}
  {xs : List Nat}

/-- The loop clears the pages of the range and nothing else. -/
theorem Accounted.pagesUnmapped (h : Accounted B as m A L V xs) (hB : B.KernelApart) {hi}
    (hclean : Unaliased m.vm.state as addr n hi) :
    PagesUnmapped as addr hi m.vm.state (freePages as addr n m.vm.state) := by
  have ha : as ∈ V.live := h.live ▸ h.space
  obtain ⟨u, pmm, hu, hpaging, hleaf, -, hupper⟩ :=
    freePages_spec h.files.toPaging ha fun _ => hclean.low
  have hpte : ∀ x, pteAt (freePages as addr n m.vm.state) as x = pteAt u as x := by
    intro x
    rw [hu, pteAt_entryBelow, pteAt_entryBelow]
    rfl
  have hgone : ∀ x, presentPte m.vm.state as x = none →
      presentPte (freePages as addr n m.vm.state) as x = none := fun x hnone =>
    (presentPte_freePages m.vm.state as addr n x).elim id fun hc => hc.1.trans hnone
  refine ⟨fun x hx hlo hhi => ?_, fun x hx hout => ?_, fun x hlo hhi => ?_⟩
  · by_cases hmapped : presentPte m.vm.state as x = none
    · exact hgone x hmapped
    · exact (presentPte_freePages m.vm.state as addr n x).resolve_right fun hc =>
        hc.2 ((hclean x hx hmapped).1.mpr ⟨hlo, hhi⟩)
  · by_cases hmapped : presentPte m.vm.state as x = none
    · exact (hgone x hmapped).trans hmapped.symm
    rw [presentPte, hpte, ← presentPte, Mapped.presentPte_eq hpaging ha (pageOf_user hx),
      Mapped.presentPte_eq h.files.toPaging ha (pageOf_user hx)]
    refine (hleaf _).resolve_right ?_
    rintro ⟨-, i, hi, heq⟩
    have hpage : SamePage (addr + i * pageSize) x := by
      rw [SamePage, Nat.mod_eq_of_lt (by omega : x < 2 ^ 48)]
      exact (Prod.mk.inj heq).2.symm
    exact hout ((hclean x (.inl hx) hmapped).1.mp ⟨i, hi, hpage⟩)
  have hindex : 256 ≤ tableIndex 3 x := by
    rw [tableIndex_eq, pageOf, pageSize, Nat.div_div_eq_div_mul]
    omega
  rw [h.frames, h.live] at hupper
  rw [hpte, h.kernel.pteAt_eq hB h.space hindex,
    (h.kernel.sameUpper hupper).pteAt_eq hB h.space hindex]

end UserMemory

theorem smallVmBoot_kernelApart : smallVmBoot.KernelApart where
  root hin := by
    have hlow := (smallVm_frames _ hin).1
    exact absurd hlow (by decide)
  tables virt _ hpres := by
    have hzero : has (0 : Word) ptePresent = true := hpres
    exact absurd hzero (by decide)

/-- Two pages of anonymous memory, placed by the kernel. -/
def mapTwoPages : MmapCall where
  addr := 0
  length := 0x2000
  prot := 3
  flags := 0x22
  fd := -1
  offset := 0
  limit := -1
  file := .error (-9)
  alloc := some Heap.kheapStart

/-- The pages are mapped at `0x400000` and the second one is written to. -/
def mapAndWrite : List MemEvent :=
  [.mmap mapTwoPages, .fault 0x401000 none false, .write 0x401000 fun _ => 7]

def noNodes : Nat → Vma := fun _ => ⟨0, 0, 0, 0, none, none, none, 0⟩

/-- No event of the list frees pages. -/
def MemEvent.harmless : MemEvent → Bool
  | .fault addr _ _ | .write addr _ => addr < 2 ^ 47
  | .munmap .. => false
  | .mmap _ | .allocOther _ | .freeOther _ => true

theorem UserMemory.careful_of_harmless (as : Nat) (m : UserMemory) (e : MemEvent)
    (h : e.harmless = true) : m.Careful as e := by
  cases e with
  | munmap => cases h
  | fault addr | write addr =>
    have hlt : addr < 2 ^ 47 := of_decide_eq_true h
    exact hlt
  | mmap | allocOther | freeOther => trivial

end Kurios.Vm
