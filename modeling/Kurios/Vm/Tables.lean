import Kurios.Base.Radix
import Kurios.Pmm.Ledger
import Kurios.Vm.Defs

/-!
The page tables of the live address spaces as a forest.

The lower halves of the tables are radix trees of four levels whose tables belong to
one address space each; `Paging` says so, and that the ledger of the allocator has
exactly these tables. The upper half of a PML4 is a copy of the kernel's and is left
alone. `leaf s V (a, v)` is the entry that maps page `v` of address space `a`.

`as_get_pte` reads the leaf (`walkDown_none`), or makes room for it: whatever it
allocates, no leaf changes (`walkDown_some`).
-/

namespace Kurios.Vm

open Base Pmm Function Option BitVec

variable {flag : Word} {l n t v virt a f : Nat} {m : MemInfo}

/-! ### Entries -/

theorem has_or (a b flag : Word) : has (a ||| b) flag = (has a flag || has b flag) := by
  have h : (a ||| b) &&& flag = (a &&& flag) ||| (b &&& flag) := by
    rw [BitVec.and_comm, BitVec.and_or_distrib_left, BitVec.and_comm flag a, BitVec.and_comm flag b]
  rw [Bool.eq_iff_iff]
  simp only [has, h, bne_iff_ne, ne_eq, Bool.or_eq_true]
  rw [show (0 : Word) = 0#64 from rfl, or_eq_zero_iff, not_and_or]

/-- Masking out bits that do not include the flag. -/
theorem has_and {a m} (h : m &&& flag = flag) : has (a &&& m) flag = has a flag := by
  rw [has, BitVec.and_assoc, h, has]

theorem has_and_zero {a m} (h : m &&& flag = 0) : has (a &&& m) flag = false := by
  rw [has, BitVec.and_assoc, h]
  simp

theorem pteFrame_eq (entry : Word) : pteFrame entry = entry.toNat / 4096 % 2 ^ 40 := by
  have hmask : pteAddrMask.toNat >>> 12 = 2 ^ 40 - 1 := by decide
  rw [pteFrame, physToPfn, pageShift, toNat_and, Nat.shiftRight_and_distrib, hmask,
    Nat.and_two_pow_sub_one_eq_mod, Nat.shiftRight_eq_div_pow]

theorem pteFrame_lt (entry : Word) : pteFrame entry < 2 ^ 40 := by
  rw [pteFrame_eq]
  exact Nat.mod_lt _ (Nat.two_pow_pos 40)

theorem physWord_toNat (h : f < 2 ^ 40) : (physWord f).toNat = f * 4096 := by
  rw [physWord, pfnToPhys_eq, toNat_ofNat, Nat.mod_eq_of_lt]
  omega

theorem pteFrame_physWord (h : f < 2 ^ 40) : pteFrame (physWord f) = f := by
  rw [pteFrame_eq, physWord_toNat h, Nat.mul_div_cancel _ (by decide), Nat.mod_eq_of_lt h]

/-- Bits outside the address do not change the frame. -/
theorem pteFrame_or {a b} (h : b &&& pteAddrMask = 0) : pteFrame (a ||| b) = pteFrame a := by
  have hand : (a ||| b) &&& pteAddrMask = a &&& pteAddrMask := by
    rw [BitVec.and_comm, BitVec.and_or_distrib_left, BitVec.and_comm _ b, h, BitVec.and_comm]
    simp
  rw [pteFrame, hand, pteFrame]

theorem pteFrame_and_mask (a : Word) : pteFrame (a &&& pteAddrMask) = pteFrame a := by
  rw [pteFrame, BitVec.and_assoc, BitVec.and_self, pteFrame]

theorem and_not_mask_mask (a : Word) : a &&& ~~~pteAddrMask &&& pteAddrMask = 0 := by
  rw [BitVec.and_assoc, show ~~~pteAddrMask &&& pteAddrMask = (0 : Word) from by decide]
  simp

theorem flags_and_mask (a b : Word) : a &&& ~~~pteAddrMask &&& b &&& pteAddrMask = 0 := by
  rw [BitVec.and_assoc, BitVec.and_comm b, ← BitVec.and_assoc, and_not_mask_mask]
  exact zero_and

theorem physWord_masked (h : f < 2 ^ 40) : physWord f &&& pteAddrMask = physWord f := by
  have hmask : pteAddrMask.toNat = (2 ^ 40 - 1) <<< 12 := by decide
  apply eq_of_toNat_eq
  rw [toNat_and, hmask, physWord_toNat h, show 4096 = 2 ^ 12 from rfl, ← Nat.shiftLeft_eq,
    ← Nat.shiftLeft_and_distrib, Nat.and_two_pow_sub_one_eq_mod, Nat.mod_eq_of_lt h]

theorem has_present_or (a : Word) : has (a ||| ptePresent) ptePresent = true := by
  rw [has_or, show has ptePresent ptePresent = true from by decide, Bool.or_true]

/-- The entry of a table. -/
theorem pteFrame_table (h : f < 2 ^ 40) : pteFrame (physWord f ||| tableFlags) = f := by
  rw [pteFrame_or (by decide), pteFrame_physWord h]

theorem has_present_table (f : Nat) : has (physWord f ||| tableFlags) ptePresent = true := by
  rw [has_or, show has tableFlags ptePresent = true by decide, Bool.or_true]

/-! ### Memory -/

namespace VmState

variable (s : VmState)

theorem setEntry_mem (table index : Nat) (entry : Word) (t i : Nat) :
    (s.setEntry table index entry).mem t i =
      if t = table ∧ i = index then entry else s.mem t i := by
  by_cases ht : t = table
  · subst ht
    simp [setEntry, update_apply]
  · simp [setEntry, ht]

theorem setEntry_mem_of_ne {table} (h : t ≠ table) (index : Nat) (entry : Word) :
    (s.setEntry table index entry).mem t = s.mem t :=
  update_of_ne h _ _

theorem fillFrame_mem (frame : Nat) (words : Nat → Word) (t i : Nat) :
    (s.fillFrame frame words).mem t i = if t = frame then words i else s.mem t i := by
  by_cases ht : t = frame
  · subst ht
    simp [fillFrame]
  · simp [fillFrame, ht]

theorem fillFrame_mem_of_ne {frame} (h : t ≠ frame) (words : Nat → Word) :
    (s.fillFrame frame words).mem t = s.mem t :=
  update_of_ne h _ _

end VmState

/-! ### Pages and places -/

/-- The number of the page of an address. -/
def pageOf (virt : Nat) : Nat := virt / pageSize

/-- The pages of the user half. -/
def userPages : Nat := 2 ^ 35

theorem tableIndex_eq (level virt : Nat) :
    tableIndex level virt = pageOf virt / 512 ^ level % 512 := by
  have hmask : (0x1FF : Nat) = 2 ^ 9 - 1 := rfl
  rw [tableIndex, hmask, Nat.and_two_pow_sub_one_eq_mod, Nat.shiftRight_eq_div_pow, Nat.pow_add,
    ← Nat.div_div_eq_div_mul, Nat.pow_mul]
  rfl

/-- The user half: the PML4 at level 3 has 256 entries, every other table 512. -/
def userDims : RadixDims where
  fan := 512
  top := 3
  width l := 2 ^ (35 - 9 * (l + 1))
  width_top := rfl
  width_step l n hl hn := by
    interval_cases l
    all_goals
      simp only [Nat.reduceAdd, Nat.reduceMul, Nat.reduceSub, Nat.reducePow] at hn ⊢
      omega

/-- The live address spaces and where their tables are. -/
structure View where
  live : Finset Nat
  tables : Radix Nat Nat

section

variable (mem : Nat → Nat → Word) (table index : Nat)

/-- The entry at an index, if it is present. -/
def presentAt : Option Word :=
  if has (mem table index) ptePresent then some (mem table index) else none

/-- The table or page an entry points to. -/
def child : Option Nat :=
  (presentAt mem table index).map pteFrame

end

def roots (s : VmState) (live : Finset Nat) (as : Nat) : Option Nat :=
  if as ∈ live then some (s.root as) else none

/-- What a change of an address space leaves as it is. -/
theorem VmState.modifySpace_congr {β : Type} (s : VmState) {f}
    (g : AddressSpace → β) (hf : ∀ x, g (f x) = g x) (a b : Nat) :
    g ((s.modifySpace a f).spaces b) = g (s.spaces b) := by
  by_cases hb : b = a
  · subst hb
    simp [modifySpace, hf]
  · simp [modifySpace, hb]

/-- The entry that maps page `k.2` of address space `k.1`. -/
def leaf (s : VmState) (V : View) (k : Nat × Nat) : Option Word :=
  (V.tables.node k.1 0 (k.2 / 512)).bind fun table => presentAt s.mem table (k.2 % 512)

/-- The page tables of the live address spaces are trees of their own, made of the
tables in the ledger. -/
structure Paging (s : VmState) (A : Arena) (L : Ledger) (V : View) : Prop where
  accounts : Accounts s.pmm A L
  narrow : ∀ f ∈ A.frames, f < 2 ^ 40
  shape : V.tables.Shape userDims (roots s V.live) (child s.mem)
  owned : ∀ t, V.tables.Has t ↔ t ∈ L.tables
  huge : ∀ a l n t i, V.tables.node a l n = some t → l = 1 ∨ l = 2 →
    has (s.mem t i) ptePresent = true → has (s.mem t i) pteHuge = false

namespace Paging

variable {s : VmState} {A : Arena} {L : Ledger} {V : View}

/-- Before the first address space, every live block belongs to others. -/
theorem start (hbuddy : Buddy s.pmm A) (hnarrow : ∀ f ∈ A.frames, f < 2 ^ 40) :
    Paging s A ⟨A.live, ∅, fun _ => 0⟩ ⟨∅, ⟨fun _ _ _ => none⟩⟩ where
  accounts := .start hbuddy
  narrow := hnarrow
  shape := ⟨fun _ => rfl, fun _ _ _ _ _ => rfl, nofun, nofun⟩
  owned t := by simp [Radix.Has]
  huge a l n t i h := by cases h

section

variable (h : Paging s A L V)
include h

theorem root (ha : a ∈ V.live) : V.tables.node a 3 0 = some (s.root a) :=
  (h.shape.root a).trans (if_pos ha)

theorem node_live (hnode : V.tables.node a l n = some t) : a ∈ V.live := by
  by_contra ha
  rw [h.shape.node_none (if_neg ha) l n] at hnode
  cases hnode

theorem node_mem (hnode : V.tables.node a l n = some t) : t ∈ L.tables :=
  (h.owned t).mp ⟨a, l, n, hnode⟩

/-- Pages of the user half of live address spaces are the only ones with a leaf. -/
theorem leaf_key {k entry} (hk : leaf s V k = some entry) : k.1 ∈ V.live ∧ k.2 < userPages := by
  obtain ⟨t, hnode, -⟩ := bind_eq_some_iff.mp hk
  have hwidth : k.2 / 512 < 2 ^ 26 := (h.shape.inside _ _ _ _ hnode).2
  refine ⟨h.node_live hnode, ?_⟩
  rw [userPages]
  omega

end

/-! ### Reading -/

theorem page_width (hv : v < userPages) : v / 512 < userDims.width 0 := by
  exact Nat.div_lt_of_lt_mul hv

theorem root_place (hv : v < userPages) : v / 512 / 512 ^ 3 = 0 := by
  rw [userPages] at hv
  omega

theorem tableIndex_place (l virt : Nat) :
    tableIndex (l + 1) virt = pageOf virt / 512 / 512 ^ l % 512 := by
  rw [tableIndex_eq, pow_succ', ← Nat.div_div_eq_div_mul]

section

variable (hv : pageOf virt < userPages)
include hv

/-- One level of a walk: the entry is not present and nothing is below, or it points to
the next table and is not huge. -/
theorem descend (h : Paging s A L V) (hl : l < 3)
    (ht : V.tables.node a (l + 1) (pageOf virt / 512 / 512 ^ (l + 1)) = some t) :
    (has (s.mem t (tableIndex (l + 1) virt)) ptePresent = false ∧
      V.tables.node a 0 (pageOf virt / 512) = none) ∨
    (has (s.mem t (tableIndex (l + 1) virt)) ptePresent = true ∧
      ¬ (l + 1 ≠ 3 ∧ has (s.mem t (tableIndex (l + 1) virt)) pteHuge = true) ∧
      V.tables.node a l (pageOf virt / 512 / 512 ^ l) =
        some (pteFrame (s.mem t (tableIndex (l + 1) virt)))) := by
  have hkey := page_width hv
  have hstep := h.shape.step a hkey (show l < userDims.top from hl)
  simp only [userDims] at hstep
  rw [ht, bind_some, child, presentAt, ← tableIndex_place] at hstep
  by_cases hpres : has (s.mem t (tableIndex (l + 1) virt)) ptePresent = true
  · right
    rw [if_pos hpres, map_some] at hstep
    refine ⟨hpres, ?_, hstep⟩
    rintro ⟨hne, hhuge⟩
    have hfalse := h.huge a (l + 1) _ t _ ht (by omega) hpres
    rw [hhuge] at hfalse
    cases hfalse
  left
  rw [if_neg hpres, map_none] at hstep
  exact ⟨Bool.not_eq_true _ ▸ hpres,
    h.shape.none_below hkey (show l ≤ userDims.top from le_of_lt hl) hstep⟩

/-- `as_get_pte` without `create` finds the table of level 0. -/
theorem walkDown_none (h : Paging s A L V) (hl : l ≤ 3)
    (ht : V.tables.node a l (pageOf virt / 512 / 512 ^ l) = some t) :
    walkDown none virt l t s = (V.tables.node a 0 (pageOf virt / 512), s) := by
  induction l generalizing t with
  | zero =>
    rw [pow_zero, Nat.div_one] at ht
    rw [walkDown, ht]
  | succ l ih =>
    rw [walkDown]
    obtain ⟨hpres, hnone⟩ | ⟨hpres, hsmall, hnext⟩ := h.descend hv hl ht
    · simp [nextTable, hpres, hnone]
    · rw [if_neg fun hc => hsmall ⟨hc.1, hc.2.2⟩, nextTable, if_pos hpres]
      exact ih (by omega) hnext

theorem root_node (h : Paging s A L V) (ha : a ∈ V.live) :
    V.tables.node a 3 (pageOf virt / 512 / 512 ^ 3) = some (s.root a) := by
  rw [root_place hv, h.root ha]

theorem asGetPte_none (h : Paging s A L V) (ha : a ∈ V.live) :
    asGetPte s a virt none =
      ((V.tables.node a 0 (pageOf virt / 512)).map fun t => (t, pageOf virt % 512), s) := by
  rw [asGetPte, h.walkDown_none hv (le_refl 3) (h.root_node hv ha), tableIndex_eq]
  cases V.tables.node a 0 (pageOf virt / 512) with
  | none => rfl
  | some t => simp

end

end Paging

/-! ### Making room -/

/-- `alloc_page` of the VM state. -/
theorem allocFrame_spec {s A L} (h : Accounts s.pmm A L) :
    allocFrame s = (none, s) ∨
      ∃ f m A', allocFrame s = (some f, { s with pmm := m }) ∧ L.Fresh f ∧ f ∈ A.frames ∧
        SameMachine s.pmm A m A' ∧ Accounts m A' (L.addTable f) ∧
          Accounts m A' (L.setRefs f 1) := by
  rcases h.allocPage with heq | ⟨f, m, A', heq, hfresh, hin, hpos, hsame, htable, hcounted⟩
  · left
    rw [allocFrame, heq]
    rfl
  right
  refine ⟨f, m, A', ?_, hfresh, hin, hsame, htable, hcounted⟩
  have hne := pfnToPhys_ne_zero hpos
  simp [allocFrame, heq, if_neg hne, physToPfn_pfnToPhys]

/-- More tables for address space `a`, and nothing that a page can see. -/
structure Grown (a : Nat) (s : VmState) (A : Arena) (L : Ledger) (V : View)
    (s' : VmState) (A' : Arena) (L' : Ledger) (V' : View) : Prop where
  paging : Paging s' A' L' V'
  machine : SameMachine s.pmm A s'.pmm A'
  leaf : ∀ k, leaf s' V' k = leaf s V k
  refs : L'.refs = L.refs
  others : L'.others = L.others
  live : V'.live = V.live
  spaces : s'.spaces = s.spaces
  kernelCr3 : s'.kernelCr3 = s.kernelCr3
  cache : s'.cache = s.cache
  data : ∀ f, 0 < L.refs f → s'.mem f = s.mem f
  node : ∀ b l n, b ≠ a → V'.tables.node b l n = V.tables.node b l n

namespace Grown

variable {a : Nat} {s s' s'' : VmState} {A A' A'' : Arena} {L L' L'' : Ledger} {V V' V'' : View}

theorem refl (a : Nat) (h : Paging s A L V) : Grown a s A L V s A L V :=
  ⟨h, .refl _ _, fun _ => rfl, rfl, rfl, rfl, rfl, rfl, rfl, fun _ _ => rfl, fun _ _ _ _ => rfl⟩

theorem trans (h : Grown a s A L V s' A' L' V') (h' : Grown a s' A' L' V' s'' A'' L'' V'') :
    Grown a s A L V s'' A'' L'' V'' where
  paging := h'.paging
  machine := h.machine.trans h'.machine
  leaf k := (h'.leaf k).trans (h.leaf k)
  refs := h'.refs.trans h.refs
  others := h'.others.trans h.others
  live := h'.live.trans h.live
  spaces := h'.spaces.trans h.spaces
  kernelCr3 := h'.kernelCr3.trans h.kernelCr3
  cache := h'.cache.trans h.cache
  data f hf := (h'.data f (h.refs.symm ▸ hf)).trans (h.data f hf)
  node b l n hb := (h'.node b l n hb).trans (h.node b l n hb)

end Grown

/-- The upper halves of the PML4s and the frames that the allocator does not manage are as
before. -/
structure SameUpper (frames live : Finset Nat) (s s' : VmState) : Prop where
  outside : ∀ f ∉ frames, s'.mem f = s.mem f
  upper : ∀ a ∈ live, ∀ i, 256 ≤ i → s'.mem (s.root a) i = s.mem (s.root a) i
  root : ∀ a ∈ live, s'.root a = s.root a
  kernelCr3 : s'.kernelCr3 = s.kernelCr3

namespace SameUpper

variable {frames live : Finset Nat} {s s' s'' : VmState}

/-- Memory and roots are as before. -/
theorem of_mem (hmem : s'.mem = s.mem) (hspaces : s'.spaces = s.spaces)
    (hcr3 : s'.kernelCr3 = s.kernelCr3) : SameUpper frames live s s' where
  outside f _ := by rw [hmem]
  upper a _ i _ := by rw [hmem]
  root a _ := by rw [VmState.root, hspaces, VmState.root]
  kernelCr3 := hcr3

theorem refl (s : VmState) : SameUpper frames live s s := of_mem rfl rfl rfl

theorem trans (h : SameUpper frames live s s') (h' : SameUpper frames live s' s'') :
    SameUpper frames live s s'' where
  outside f hf := (h'.outside f hf).trans (h.outside f hf)
  upper a ha i hi := by
    have hlast := h'.upper a ha i hi
    rw [h.root a ha] at hlast
    exact hlast.trans (h.upper a ha i hi)
  root a ha := (h'.root a ha).trans (h.root a ha)
  kernelCr3 := h'.kernelCr3.trans h.kernelCr3

end SameUpper

namespace Paging

variable {s : VmState} {A : Arena} {L : Ledger} {V : View}

section

variable (h : Paging s A L V) {a f : Nat}
include h

theorem table_frame (ht : t ∈ L.tables) : t ∈ A.frames :=
  (h.accounts.frame_range (h.accounts.table_live ht)).1

/-- A frame of the allocator that is no table is filled. -/
theorem fill_upper (hin : f ∈ A.frames) (hf : f ∉ L.tables) (words : Nat → Word) :
    SameUpper A.frames V.live s (s.fillFrame f words) where
  outside q hq := by
    have hne : q ≠ f := fun he => hq (he ▸ hin)
    exact s.fillFrame_mem_of_ne hne words
  upper b hb i _ := by
    have hne : s.root b ≠ f := fun he => hf (he ▸ h.node_mem (h.root hb))
    rw [s.fillFrame_mem_of_ne hne]
  root _ _ := rfl
  kernelCr3 := rfl

/-- An entry of a table of level 0 is written. -/
theorem setLeaf_upper (ht : V.tables.node a 0 n = some t) (i : Nat) (entry : Word) :
    SameUpper A.frames V.live s (s.setEntry t i entry) where
  outside q hq := by
    have hne : q ≠ t := fun he => hq (he ▸ h.table_frame (h.node_mem ht))
    exact s.setEntry_mem_of_ne hne _ _
  upper b hb j _ := by
    have hne : s.root b ≠ t := by
      intro he
      have := (h.shape.inj _ _ _ _ _ _ _ ht (he ▸ h.root hb)).2.1
      omega
    rw [s.setEntry_mem_of_ne hne]
  root _ _ := rfl
  kernelCr3 := rfl

/-- A new table is filled and linked at an entry of the user half. -/
theorem linkTable_upper (hl : l < 3) (hn : n < userDims.width l)
    (hpar : V.tables.node a (l + 1) (n / 512) = some t) (hin : f ∈ A.frames)
    (hfresh : f ∉ L.tables) (entry : Word) :
    SameUpper A.frames V.live s
      ((VmState.fillFrame { s with pmm := m } f fun _ => 0).setEntry t (n % 512) entry) := by
  have htable := h.node_mem hpar
  constructor
  case outside =>
    intro q hq
    have hqf : q ≠ f := fun he => hq (he ▸ hin)
    have hqt : q ≠ t := fun he => hq (he ▸ h.table_frame htable)
    rw [VmState.setEntry_mem_of_ne _ hqt, VmState.fillFrame_mem_of_ne _ hqf]
  case upper =>
    intro b hb i hi
    have hroot := h.root hb
    have hne : s.root b ≠ f := fun he => hfresh (he ▸ h.node_mem hroot)
    -- The entry of a PML4 is one of its first 256.
    have hcell : ¬ (s.root b = t ∧ i = n % 512) := by
      rintro ⟨he, rfl⟩
      have hlevel := (h.shape.inj _ _ _ _ _ _ _ hpar (he ▸ hroot)).2.1
      obtain rfl : l = 2 := by omega
      have hwidth : n < 256 := hn
      omega
    rw [VmState.setEntry_mem, if_neg hcell, VmState.fillFrame_mem, if_neg hne]
  case root => exact fun _ _ => rfl
  case kernelCr3 => rfl

end

section

variable (h : Paging s A L V)
include h

/-- A new table is linked below table `t`. -/
theorem linkTable {A'} (hl : l < 3) (hn : n < userDims.width l)
    (hpar : V.tables.node a (l + 1) (n / 512) = some t)
    (hemp : has (s.mem t (n % 512)) ptePresent = false) (hfresh : L.Fresh f) (hnarrow : f < 2 ^ 40)
    (hsame : SameMachine s.pmm A m A') (hacc : Accounts m A' (L.addTable f)) :
    Grown a s A L V
      ((VmState.fillFrame { s with pmm := m } f fun _ => 0).setEntry t (n % 512)
        (physWord f ||| tableFlags))
      A' (L.addTable f) ⟨V.live, V.tables.set a l n f⟩ := by
  set s' := (VmState.fillFrame { s with pmm := m } f fun _ => 0).setEntry t (n % 512)
    (physWord f ||| tableFlags) with hs'
  have htables : t ∈ L.tables := h.node_mem hpar
  have hnew : ¬ V.tables.Has f := fun hf => hfresh.1 ((h.owned f).mp hf)
  have htf : t ≠ f := fun he => hfresh.1 (he ▸ htables)
  have hcell : s'.mem t (n % 512) = physWord f ||| tableFlags := by
    rw [hs', VmState.setEntry_mem, if_pos ⟨rfl, rfl⟩]
  have hzero : ∀ i, s'.mem f i = 0 := by
    intro i
    rw [hs', VmState.setEntry_mem, if_neg fun hc => htf hc.1.symm, VmState.fillFrame_mem,
      if_pos rfl]
  have hkeep : ∀ v i, v ≠ f → ¬ (v = t ∧ i = n % 512) → s'.mem v i = s.mem v i := by
    intro v i hv hi
    rw [hs', VmState.setEntry_mem, if_neg hi, VmState.fillFrame_mem, if_neg hv]
  have hnone : child s.mem t (n % 512) = none := by simp [child, presentAt, hemp]
  have hfree : V.tables.node a l n = none := by
    rw [h.shape.link a l n hl hn]
    exact (congrArg (Option.bind · _) hpar).trans hnone
  have hnodef : ∀ b k p v, V.tables.node b k p = some v → v ≠ f := fun b k p v hv he =>
    hnew ⟨b, k, p, he ▸ hv⟩
  refine ⟨⟨hacc, fun q hq => h.narrow q (hsame.frames ▸ hq), ?_, fun q => ?_, ?_⟩, hsame, ?_, rfl,
    rfl, rfl, rfl, rfl, rfl, ?_, ?_⟩
  · refine h.shape.grow hl hn hpar hnone hnew ?_ ?_ ?_
    · simp [child, presentAt, userDims, hcell, has_present_table, pteFrame_table hnarrow]
    · intro v i hv hi
      have hvf : v ≠ f := fun he => hnew (he ▸ hv)
      simp [child, presentAt, hkeep v i hvf hi]
    · simp [child, presentAt, hzero, has]
  · rw [Radix.has_set hfree, h.owned]
    exact (Finset.mem_insert).symm
  · intro b k p v i hnode hk hpres
    by_cases hp : b = a ∧ k = l ∧ p = n
    · obtain ⟨rfl, rfl, rfl⟩ := hp
      obtain rfl : f = v := some.inj ((Radix.set_self _ _ _ _ _).symm.trans hnode)
      simp [hzero, has] at hpres
    have hold : V.tables.node b k p = some v := (Radix.set_of_ne _ _ hp).symm.trans hnode
    by_cases hi : v = t ∧ i = n % 512
    · rw [hi.1, hi.2, hcell, has_or, ← physWord_masked hnarrow, has_and_zero (by decide)]
      decide
    · rw [hkeep v i (hnodef _ _ _ _ hold) hi] at hpres ⊢
      exact h.huge b k p v i hold hk hpres
  · rintro ⟨b, v⟩
    by_cases hp : b = a ∧ 0 = l ∧ v / 512 = n
    · obtain ⟨rfl, rfl, rfl⟩ := hp
      simp only [leaf, hfree, Radix.set_self, bind_some, bind_none]
      simp [presentAt, hzero, has]
    simp only [leaf, Radix.set_of_ne _ _ hp]
    cases hnode : V.tables.node b 0 (v / 512) with
    | none => rfl
    | some u =>
      have hut : u ≠ t := by
        rintro rfl
        have := (h.shape.inj _ _ _ _ _ _ _ hnode hpar).2.1
        omega
      simp [presentAt, hkeep u (v % 512) (hnodef _ _ _ _ hnode) fun hc => hut hc.1]
  · intro q hq
    funext i
    have hqf : q ≠ f := fun he => hq.ne' (he ▸ hfresh.2.1)
    have hqt : q ≠ t := fun he => hq.ne' (he ▸ (h.accounts.table t htables).1)
    exact hkeep q i hqf fun hc => hqt hc.1
  · intro b k p hb
    exact Radix.set_of_ne _ _ fun hc => hb hc.1

/-- `as_get_pte` with `create` finds or makes the table of level 0, or fails. -/
theorem walkDown_some (hv : pageOf virt < userPages) (hl : l ≤ 3)
    (ht : V.tables.node a l (pageOf virt / 512 / 512 ^ l) = some t) :
    ∃ r s' A' L' V', walkDown (some tableFlags) virt l t s = (r, s') ∧ Grown a s A L V s' A' L' V' ∧
      SameUpper A.frames V.live s s' ∧ (r = none ∨ r = V'.tables.node a 0 (pageOf virt / 512)) := by
  induction l generalizing t s A L V with
  | zero =>
    rw [pow_zero, Nat.div_one] at ht
    exact ⟨some t, s, A, L, V, rfl, .refl a h, .refl s, .inr ht.symm⟩
  | succ l ih =>
    rw [walkDown]
    obtain ⟨hpres, -⟩ | ⟨hpres, hsmall, hnext⟩ := h.descend hv hl ht
    · have hskip : ¬ (l + 1 ≠ 3 ∧ has (s.mem t (tableIndex (l + 1) virt)) ptePresent = true ∧
          has (s.mem t (tableIndex (l + 1) virt)) pteHuge = true) := by
        simp [hpres]
      rw [if_neg hskip, nextTable, hpres, if_neg Bool.false_ne_true]
      dsimp only [allocPageTable]
      rcases allocFrame_spec h.accounts with heq | ⟨f, m, A', heq, hfresh, hin, hsame, hacc, -⟩
      · rw [heq]
        exact ⟨none, s, A, L, V, rfl, .refl a h, .refl s, .inl rfl⟩
      rw [pow_succ, ← Nat.div_div_eq_div_mul] at ht
      rw [tableIndex_place] at hpres
      have hwidth := Radix.place_width userDims (page_width hv) (le_of_lt hl)
      have hgr := h.linkTable hl hwidth ht hpres hfresh (h.narrow f hin) hsame hacc
      have hupper := h.linkTable_upper (m := m) hl hwidth ht hin hfresh.1
        (physWord f ||| tableFlags)
      obtain ⟨r, s', A'', L', V', hwalk, hrest, hupper', hr⟩ :=
        ih hgr.paging (by omega) (Radix.set_self _ _ _ _ _)
      rw [hsame.frames] at hupper'
      rw [heq, tableIndex_place]
      exact ⟨r, s', A'', L', V', hwalk, hgr.trans hrest, hupper.trans hupper', hr⟩
    · rw [if_neg fun hc => hsmall ⟨hc.1, hc.2.2⟩, nextTable, if_pos hpres]
      exact ih h (by omega) hnext

theorem asGetPte_some (ha : a ∈ V.live) (hv : pageOf virt < userPages) :
    ∃ s' A' L' V', Grown a s A L V s' A' L' V' ∧
      SameUpper A.frames V.live s s' ∧
      (asGetPte s a virt (some tableFlags) = (none, s') ∨
        ∃ t, V'.tables.node a 0 (pageOf virt / 512) = some t ∧
          asGetPte s a virt (some tableFlags) = (some (t, pageOf virt % 512), s')) := by
  obtain ⟨r, s', A', L', V', hwalk, hgr, hupper, hr⟩ :=
    h.walkDown_some hv (le_refl 3) (h.root_node hv ha)
  refine ⟨s', A', L', V', hgr, hupper, ?_⟩
  rw [asGetPte, hwalk, tableIndex_eq]
  cases r with
  | none => exact .inl rfl
  | some t =>
    obtain hnone | hnode := hr
    · cases hnone
    · exact .inr ⟨t, hnode.symm, by simp⟩

/-! ### Writing a leaf -/

/-- An entry of a table of level 0 is written. -/
theorem setLeaf {i} (hnode : V.tables.node a 0 n = some t) (entry : Word) :
    Paging (s.setEntry t i entry) A L V where
  __ := h
  shape := by
    refine h.shape.frame fun b l p u hu j => ?_
    have hut : u ≠ t := by
      rintro rfl
      have := (h.shape.inj _ _ _ _ _ _ _ hnode hu).2.1
      omega
    simp [child, presentAt, s.setEntry_mem_of_ne hut]
  huge b l p u j hu hl := by
    have hut : u ≠ t := by
      rintro rfl
      have := (h.shape.inj _ _ _ _ _ _ _ hnode hu).2.1
      omega
    rw [s.setEntry_mem_of_ne hut]
    exact h.huge b l p u j hu hl

theorem leaf_setLeaf (hnode : V.tables.node a 0 (v / 512) = some t) (entry : Word) :
    leaf (s.setEntry t (v % 512) entry) V = update (leaf s V) (a, v)
      (if has entry ptePresent then some entry else none) := by
  funext ⟨b, u⟩
  by_cases hk : (b, u) = (a, v)
  · cases hk
    rw [update_self]
    simp [leaf, hnode, presentAt, s.setEntry_mem]
  rw [update_of_ne hk]
  simp only [leaf]
  cases hu : V.tables.node b 0 (u / 512) with
  | none => rfl
  | some w =>
    have hcell : ¬ (w = t ∧ u % 512 = v % 512) := by
      rintro ⟨rfl, hmod⟩
      obtain ⟨rfl, -, hdiv⟩ := h.shape.inj _ _ _ _ _ _ _ hnode hu
      refine hk (Prod.ext rfl ?_)
      show u = v
      omega
    simp [presentAt, s.setEntry_mem, if_neg hcell]

/-- A frame that is not a table is written. -/
theorem setData {s'} (hpmm : s'.pmm = s.pmm) (hspaces : s'.spaces = s.spaces)
    (hmem : ∀ t ∈ L.tables, s'.mem t = s.mem t) : Paging s' A L V ∧ leaf s' V = leaf s V := by
  have hnode : ∀ {b l p u}, V.tables.node b l p = some u → s'.mem u = s.mem u := fun hu =>
    hmem _ (h.node_mem hu)
  have hroots : roots s' V.live = roots s V.live := by
    funext a
    simp [roots, VmState.root, hspaces]
  refine ⟨⟨hpmm ▸ h.accounts, h.narrow, ?_, h.owned, fun b l p u j hu hl => ?_⟩, ?_⟩
  · rw [hroots]
    refine h.shape.frame fun b l p u hu j => ?_
    simp [child, presentAt, hnode hu]
  · rw [hnode hu]
    exact h.huge b l p u j hu hl
  funext k
  simp only [leaf]
  cases hu : V.tables.node k.1 0 (k.2 / 512) with
  | none => rfl
  | some w => simp [presentAt, hnode hu]

end

end Paging

end Kurios.Vm
