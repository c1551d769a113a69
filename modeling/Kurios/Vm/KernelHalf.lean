import Kurios.Vm.Files

/-!
The kernel half of every address space.

`as_create` copies the upper half of the kernel's PML4. No call on the user half of an
address space writes there, or into a frame that the allocator does not manage, as those of
the kernel's own tables are. So an address of the upper half is translated as it was at
boot, in every address space (`KernelHalf.pteAt_eq`).
-/

namespace Kurios.Vm

open Pmm

variable {mem : Nat → Nat → Word} {virt t l : Nat}

/-! ### Walks -/

/-- The entry that a walk from a table ends at. -/
def entryBelow (mem : Nat → Nat → Word) (virt : Nat) : (level table : Nat) → Option Word
  | 0, table => some (mem table (tableIndex 0 virt))
  | level + 1, table =>
    let entry := mem table (tableIndex (level + 1) virt)
    if !has entry ptePresent then none
    else if level + 1 ≠ 3 ∧ has entry pteHuge then none
    else entryBelow mem virt level (pteFrame entry)

/-- The tables that a walk visits have a property. -/
def TablesBelow (P : Nat → Prop) (mem : Nat → Nat → Word) (virt : Nat) : (level table : Nat) → Prop
  | 0, table => P table
  | level + 1, table =>
    let entry := mem table (tableIndex (level + 1) virt)
    P table ∧ (has entry ptePresent = true → ¬ (level + 1 ≠ 3 ∧ has entry pteHuge = true) →
      TablesBelow P mem virt level (pteFrame entry))

theorem entryBelow_congr {mem'} (h : TablesBelow (fun t => mem' t = mem t) mem virt l t) :
    entryBelow mem' virt l t = entryBelow mem virt l t := by
  induction l generalizing t with
  | zero =>
    have hsame : mem' t = mem t := h
    rw [entryBelow, entryBelow, hsame]
  | succ l ih =>
    obtain ⟨hsame, hbelow⟩ := h
    rw [entryBelow, entryBelow, hsame]
    cases hpres : has (mem t (tableIndex (l + 1) virt)) ptePresent with
    | false => simp
    | true =>
      by_cases hhuge : l + 1 ≠ 3 ∧ has (mem t (tableIndex (l + 1) virt)) pteHuge = true
      · simp [hhuge]
      · simp only [Bool.not_true, Bool.false_eq_true, if_false, if_neg hhuge]
        exact ih (hbelow hpres hhuge)

theorem TablesBelow.imp {P Q} (h : TablesBelow P mem virt l t) (hpq : ∀ t, P t → Q t) :
    TablesBelow Q mem virt l t := by
  induction l generalizing t with
  | zero => exact hpq t h
  | succ l ih => exact ⟨hpq t h.1, fun hpres hhuge => ih (h.2 hpres hhuge)⟩

theorem walkDown_entryBelow (s : VmState) (virt l t : Nat) :
    (walkDown none virt l t s).1.map (fun t => s.mem t (tableIndex 0 virt)) =
      entryBelow s.mem virt l t := by
  induction l generalizing t with
  | zero => rfl
  | succ l ih =>
    rw [walkDown, entryBelow]
    by_cases hpres : has (s.mem t (tableIndex (l + 1) virt)) ptePresent = true
    · by_cases hhuge : l + 1 ≠ 3 ∧ has (s.mem t (tableIndex (l + 1) virt)) pteHuge = true
      · rw [if_pos ⟨hhuge.1, hpres, hhuge.2⟩, hpres, Bool.not_true,
          if_neg Bool.false_ne_true, if_pos hhuge]
        rfl
      · rw [if_neg fun hc => hhuge ⟨hc.1, hc.2.2⟩, nextTable, if_pos hpres, hpres,
          Bool.not_true, if_neg Bool.false_ne_true, if_neg hhuge]
        exact ih _
    have hfalse : has (s.mem t (tableIndex (l + 1) virt)) ptePresent = false := by
      simpa using hpres
    rw [if_neg fun hc => hpres hc.2.1, nextTable, if_neg hpres, hfalse, Bool.not_false, if_pos rfl]
    rfl

theorem pteAt_entryBelow (s : VmState) (as virt : Nat) :
    pteAt s as virt = entryBelow s.mem virt 3 (s.root as) := by
  rw [← walkDown_entryBelow, pteAt, asGetPte]
  cases walkDown none virt 3 (s.root as) s with
  | mk table s' =>
    cases table with
    | none => rfl
    | some t => rfl

/-! ### The kernel's tables -/

/-- The frames of the kernel's tables are not frames of the allocator. -/
structure VmBoot.KernelApart (B : VmBoot) : Prop where
  root : pteFrame B.state.kernelCr3 ∉ B.arena.frames
  tables : ∀ virt, 256 ≤ tableIndex 3 virt →
    let entry := B.state.mem (pteFrame B.state.kernelCr3) (tableIndex 3 virt)
    has entry ptePresent = true →
      TablesBelow (· ∉ B.arena.frames) B.state.mem virt 2 (pteFrame entry)

/-- The kernel halves of the address spaces are as the kernel's at boot. -/
structure KernelHalf (B : VmBoot) (s : VmState) (live : Finset Nat) : Prop where
  outside : ∀ f ∉ B.arena.frames, s.mem f = B.state.mem f
  upper : ∀ a ∈ live, ∀ i, 256 ≤ i → s.mem (s.root a) i = B.state.mem (pteFrame B.state.kernelCr3) i

namespace KernelHalf

variable {B : VmBoot} {s s' : VmState} {live : Finset Nat}

theorem sameUpper (h : KernelHalf B s live) (hsame : SameUpper B.arena.frames live s s') :
    KernelHalf B s' live where
  outside f hf := (hsame.outside f hf).trans (h.outside f hf)
  upper a ha i hi := by
    rw [hsame.root a ha, hsame.upper a ha i hi]
    exact h.upper a ha i hi

/-- An address of the upper half is translated as at boot. -/
theorem pteAt_eq (h : KernelHalf B s live) (hB : B.KernelApart) {a} (ha : a ∈ live)
    (hvirt : 256 ≤ tableIndex 3 virt) :
    pteAt s a virt = entryBelow B.state.mem virt 3 (pteFrame B.state.kernelCr3) := by
  have hent := h.upper a ha (tableIndex 3 virt) hvirt
  conv_rhs => rw [entryBelow]
  rw [pteAt_entryBelow, entryBelow, hent]
  split
  · rfl
  case isFalse hpres =>
  -- entries of the PML4 are not checked for huge pages
  rw [if_neg fun hc => hc.1 rfl, if_neg fun hc => hc.1 rfl]
  have htables := hB.tables virt hvirt (by simpa using hpres)
  exact entryBelow_congr (htables.imp h.outside)

/-- The first address space gets the kernel half of the kernel. -/
theorem asCreate (hB : B.KernelApart) {as vmas}
    (hcr : asCreate B.state (some as) vmas = (some as, s)) : KernelHalf B s {as} := by
  unfold Vm.asCreate allocPageTable at hcr
  rcases allocFrame_spec (Accounts.start B.buddy) with heq | ⟨f, m, A', heq, -, hin, -⟩ <;>
    rw [heq] at hcr
  · cases hcr
  obtain rfl := (Prod.mk.inj hcr).2
  have hne : pteFrame B.state.kernelCr3 ≠ f := fun he => hB.root (he ▸ hin)
  constructor
  case outside =>
    intro q hq
    have hqf : q ≠ f := fun he => hq (he ▸ hin)
    show (VmState.fillFrame (VmState.fillFrame _ f _) f _).mem q = _
    rw [VmState.fillFrame_mem_of_ne _ hqf, VmState.fillFrame_mem_of_ne _ hqf]
  case upper =>
  intro a ha i hi
  obtain rfl := Finset.mem_singleton.mp ha
  have hf : f < 2 ^ 40 := by
    have := (B.window f hin).2
    omega
  simp only [VmState.root, VmState.modifySpace, Function.update_self, pteFrame_physWord hf]
  show (VmState.fillFrame (VmState.fillFrame _ f _) f _).mem f i = _
  have hupper : kernelPml4Start ≤ i := hi
  rw [VmState.fillFrame_mem, if_pos rfl, if_pos hupper]
  exact congrFun (VmState.fillFrame_mem_of_ne _ hne _) i

end KernelHalf

end Kurios.Vm
