import Kurios.Base.Loop

/-!
Processes and the address spaces they own.

A process has a pointer `as` to an `address_space_t` and, next to it, a copy `cr3` of the
address of its page tables. They are written by `process_create` and `process_destroy`
(`kernel/process/process.c`) and by `sys_fork_impl` and `sys_execve_impl`
(`kernel/syscall/syscall.c`). A successful `execve` destroys the page tables through a
structure of its own and changes `cr3` only, so afterwards `as` is a pointer to an address
space that is gone and the new one has no owner (`execve_splits_space`); a `fork` that
fails after `as_clone` destroys the clone twice. `spaces_coherent` is what holds otherwise.

Address spaces are numbered as they are created; the addresses of their structures and of
their page tables may be used again once they are destroyed. An `as_destroy` of something
that is not an address space any more is counted in `stray`.
-/

namespace Kurios.Proc

variable {space : Option (Nat × Nat)}

open Base Function List

/-! ### Address spaces -/

/-- An existing `address_space_t`: its number, its address and its page tables. -/
structure AddressSpace where
  id : Nat
  ptr : Nat
  cr3 : Nat
deriving DecidableEq, Repr

inductive ProcState where
  | unused
  | embryo
  | ready
  | running
  | blocked
  | stopped
  | zombie
  | dead
deriving DecidableEq, Repr

/-- The fields of `process_t` that say which memory it has. -/
structure Process where
  state : ProcState
  cr3 : Nat
  as : Option Nat
deriving DecidableEq, Repr

/-- The processes in the process table, by address, and the address spaces. -/
structure ProcTable where
  procs : Nat → Option Process
  live : List AddressSpace
  created : Nat
  destroyed : List Nat
  stray : Nat
  kernelCr3 : Nat

variable (s : ProcTable)

/-- `as_create` and `as_clone`, when they succeed. -/
def asCreate (ptr cr3 : Nat) : ProcTable :=
  { s with live := ⟨s.created, ptr, cr3⟩ :: s.live, created := s.created + 1 }

/-- The end of an address space that is found by one of its addresses. -/
def destroyWhere (sel : AddressSpace → Bool) : ProcTable :=
  match s.live.find? sel with
  | none => { s with stray := s.stray + 1 }
  | some a =>
    { s with live := s.live.filter fun b => b.id ≠ a.id, destroyed := a.id :: s.destroyed }

/-- `as_destroy`. The reference count of an address space is always one. -/
def asDestroy (ptr : Nat) : ProcTable :=
  destroyWhere s fun a => a.ptr = ptr

/-! ### Processes -/

def ProcTable.setProc (p : Nat) (proc : Option Process) : ProcTable :=
  { s with procs := update s.procs p proc }

/-- `process_create` with the address `p` for the process; `loaded` is CR3 and `space` what
`as_create` returns. -/
def processCreate (p loaded : Nat) (space : Option (Nat × Nat)) : ProcTable :=
  match space with
  | none => s.setProc p (some ⟨.embryo, loaded, none⟩)
  | some (ptr, cr3) => (asCreate s ptr cr3).setProc p (some ⟨.embryo, cr3, some ptr⟩)

/-- `process_exit`. -/
def processExit (p : Nat) : ProcTable :=
  { s with procs := update s.procs p ((s.procs p).map fun proc => { proc with state := .zombie }) }

/-- `process_destroy`. -/
def processDestroy (p : Nat) : ProcTable :=
  match s.procs p with
  | none => s
  | some proc =>
    if proc.state ≠ .zombie ∧ proc.state ≠ .dead then s else
    let s := match proc.as with
      | some ptr => asDestroy s ptr
      | none => s
    s.setProc p none

/-- `sys_fork_impl` from the creation of the child `c` on: `space` is what `as_create`
returns in `process_create`, `clone` what `as_clone` returns, and the flags say whether
`fd_table_clone` and `thread_create` succeed. -/
def sysFork (c loaded : Nat) (space clone : Option (Nat × Nat))
    (fdOk threadOk : Bool) : ProcTable :=
  let s := processCreate s c loaded space
  match clone with
  | none => processDestroy (processExit s c) c
  | some (ptr, cr3) =>
    let s := asCreate s ptr cr3
    -- the address space that `process_create` made is replaced
    let s := match (s.procs c).bind (·.as) with
      | some made => asDestroy s made
      | none => s
    let s := s.setProc c (some ⟨.embryo, cr3, some ptr⟩)
    if fdOk ∧ threadOk then s.setProc c (some ⟨.ready, cr3, some ptr⟩)
    else processDestroy (processExit (asDestroy s ptr) c) c

/-- How an `execve` ends: before it has created an address space, after that with an
error, or with the new program in place. -/
inductive Exec where
  | early
  | late (ptr cr3 : Nat)
  | done (ptr cr3 : Nat)
deriving DecidableEq, Repr

/-- `sys_execve_impl` of the process `p`. The old page tables are destroyed through a
structure on the stack, and the pointer `as` stays. -/
def sysExecve (p : Nat) : Exec → ProcTable
  | .early => s
  | .late ptr cr3 => asDestroy (asCreate s ptr cr3) ptr
  | .done ptr cr3 =>
    match s.procs p with
    | none => s
    | some proc =>
      let s := asCreate s ptr cr3
      let s := if proc.cr3 ≠ s.kernelCr3 then destroyWhere s fun a => a.cr3 = proc.cr3 else s
      s.setProc p (some { proc with cr3 := cr3 })

/-! ### Histories -/

inductive ProcCall where
  | create (p loaded : Nat) (space : Option (Nat × Nat))
  | fork (p c loaded : Nat) (space clone : Option (Nat × Nat)) (fdOk threadOk : Bool)
  | execve (p : Nat) (outcome : Exec)
  | exit (p : Nat)
  | destroy (p : Nat)
deriving DecidableEq

namespace ProcTable

/-- The pointer to a new address space is not that to an existing one. -/
def Fresh (space : Nat × Nat) : Prop :=
  ∀ a ∈ s.live, a.ptr ≠ space.1
deriving Decidable

/-- One call. Memory that is handed out is not in use. -/
def step : ProcCall → Option ProcTable
  | .create p loaded space =>
    if s.procs p = none ∧ (∀ a ∈ space, s.Fresh a) then some (processCreate s p loaded space)
    else none
  | .fork p c loaded space clone fdOk threadOk =>
    if s.procs p ≠ none ∧ s.procs c = none ∧ (∀ a ∈ space, s.Fresh a) ∧
        (∀ a ∈ clone, (processCreate s c loaded space).Fresh a) then
      some (sysFork s c loaded space clone fdOk threadOk)
    else none
  | .execve p outcome =>
    if s.procs p ≠ none then
      match outcome with
      | .early => some (sysExecve s p .early)
      | .late ptr cr3 =>
        if s.Fresh (ptr, cr3) then some (sysExecve s p (.late ptr cr3)) else none
      | .done ptr cr3 =>
        if s.Fresh (ptr, cr3) then some (sysExecve s p (.done ptr cr3)) else none
    else none
  | .exit p => some (processExit s p)
  | .destroy p => some (processDestroy s p)

/-- After `process_init` there is the kernel process, on the boot loader's page tables. -/
def start (kernelProc kernelCr3 : Nat) : ProcTable where
  procs := fun p => if p = kernelProc then some ⟨.running, kernelCr3, none⟩ else none
  live := []
  created := 0
  destroyed := []
  stray := 0
  kernelCr3 := kernelCr3

/-- Each process has its own address space, with the page tables it says it has; each
address space ever created is destroyed exactly once or still belongs to a process, which
will destroy it; and no process refers to the page tables of a destroyed one. -/
structure Coherent (s : ProcTable) : Prop where
  space : ∀ p proc ptr, s.procs p = some proc → proc.as = some ptr →
    ∃ a ∈ s.live, a.ptr = ptr ∧ a.cr3 = proc.cr3
  kernel : ∀ p proc, s.procs p = some proc → proc.as = none → proc.cr3 = s.kernelCr3
  apart : ∀ p q proc proc' ptr, s.procs p = some proc → s.procs q = some proc' →
    proc.as = some ptr → proc'.as = some ptr → p = q
  owned : ∀ a ∈ s.live, ∃ p proc, s.procs p = some proc ∧ proc.as = some a.ptr
  numbered : ∀ n, n < s.created ↔ n ∈ s.destroyed ∨ ∃ a ∈ s.live, a.id = n
  once : s.destroyed.Nodup ∧ ∀ a ∈ s.live, a.id ∉ s.destroyed
  distinct : ∀ a ∈ s.live, ∀ b ∈ s.live, a.id = b.id ∨ a.ptr = b.ptr → a = b
  stray : s.stray = 0

end ProcTable

/-! ### Creation and destruction -/

namespace ProcTable

/-- An address space that was created and destroyed again. -/
def discard : ProcTable :=
  { s with created := s.created + 1, destroyed := s.created :: s.destroyed }

namespace Coherent

variable {s : ProcTable} {p ptr cr3 : Nat} {proc : Process}

section

variable (h : Coherent s)
include h

variable {a : AddressSpace}

/-- The next number is not in use. -/
theorem id_ne (ha : a ∈ s.live) : a.id ≠ s.created := by
  intro he
  exact absurd ((h.numbered s.created).mpr (.inr ⟨a, ha, he⟩)) (lt_irrefl _)

theorem not_destroyed : s.created ∉ s.destroyed := by
  intro hd
  exact absurd ((h.numbered s.created).mpr (.inl hd)) (lt_irrefl _)

theorem discard : Coherent s.discard where
  __ := h
  numbered := by
    intro n
    have hn := h.numbered n
    simp only [ProcTable.discard, mem_cons, Nat.lt_succ_iff_lt_or_eq, hn]
    rw [or_comm, or_assoc]
  once := by
    refine ⟨nodup_cons.mpr ⟨h.not_destroyed, h.once.1⟩, fun a ha => ?_⟩
    exact not_mem_cons_of_ne_of_not_mem (h.id_ne ha) (h.once.2 a ha)

/-- A new process with a new address space. -/
theorem add (hp : s.procs p = none) (hfresh : s.Fresh (ptr, cr3)) (state : ProcState) :
    Coherent ((asCreate s ptr cr3).setProc p (some ⟨state, cr3, some ptr⟩)) := by
  have hold : ∀ q proc, s.procs q = some proc → proc.as ≠ some ptr := by
    intro q proc hq has
    obtain ⟨a, ha, hptr, -⟩ := h.space q proc ptr hq has
    exact hfresh a ha hptr
  have hother : ∀ b ∈ s.live, ¬ (b.id = s.created ∨ b.ptr = ptr) :=
    fun b hb => not_or.mpr ⟨h.id_ne hb, hfresh b hb⟩
  constructor
  · intro q proc x hq has
    rcases update_cases hq with ⟨rfl, ⟨⟩⟩ | ⟨-, hq⟩
    · exact ⟨_, mem_cons_self, Option.some.inj has, rfl⟩
    · obtain ⟨a, ha, hrest⟩ := h.space q proc x hq has
      exact ⟨a, mem_cons_of_mem _ ha, hrest⟩
  · intro q proc hq has
    rcases update_cases hq with ⟨rfl, ⟨⟩⟩ | ⟨-, hq⟩
    · cases has
    · exact h.kernel q proc hq has
  · intro q r proc proc' x hq hr has has'
    rcases update_cases hq with ⟨rfl, ⟨⟩⟩ | ⟨-, hq'⟩ <;>
      rcases update_cases hr with ⟨rfl, ⟨⟩⟩ | ⟨-, hr'⟩
    · rfl
    · exact absurd (has'.trans has.symm) (hold r proc' hr')
    · exact absurd (has.trans has'.symm) (hold q proc hq')
    · exact h.apart q r proc proc' x hq' hr' has has'
  · intro a ha
    rcases mem_cons.mp ha with rfl | ha
    · exact ⟨p, _, update_self _ _ _, rfl⟩
    · obtain ⟨q, proc, hq, has⟩ := h.owned a ha
      refine ⟨q, proc, (update_of_ne ?_ _ _).trans hq, has⟩
      rintro rfl
      cases hp.symm.trans hq
  · intro n
    refine Nat.lt_succ_iff_lt_or_eq.trans ?_
    rw [h.numbered n, or_assoc, or_comm (b := n = s.created), eq_comm]
    simp [asCreate, setProc]
  · exact ⟨h.once.1, forall_mem_cons.mpr ⟨h.not_destroyed, h.once.2⟩⟩
  · intro a ha b hb hab
    rcases mem_cons.mp ha with rfl | ha <;> rcases mem_cons.mp hb with rfl | hb
    · rfl
    · exact absurd (hab.imp Eq.symm Eq.symm) (hother b hb)
    · exact absurd hab (hother a ha)
    · exact h.distinct a ha b hb hab
  · exact h.stray

/-- A record is changed, added or removed, but not the memory that the process has. -/
theorem setProc {x}
    (hnew : ∀ proc ptr, x = some proc → proc.as = some ptr →
      ∃ old, s.procs p = some old ∧ old.as = some ptr ∧ proc.cr3 = old.cr3)
    (hold : ∀ old ptr, s.procs p = some old → old.as = some ptr →
      ∃ proc, x = some proc ∧ proc.as = some ptr)
    (hkernel : ∀ proc, x = some proc → proc.as = none → proc.cr3 = s.kernelCr3) :
    Coherent (s.setProc p x) := by
  -- a process of the new table has the memory of the one it was
  have hcases : ∀ q proc ptr, update s.procs p x q = some proc → proc.as = some ptr →
      ∃ old, s.procs q = some old ∧ old.as = some ptr ∧ proc.cr3 = old.cr3 := by
    intro q proc ptr hq has
    rcases update_cases hq with ⟨rfl, hx⟩ | ⟨-, hq⟩
    · exact hnew proc ptr hx has
    · exact ⟨proc, hq, has, rfl⟩
  refine { h with space := ?_, kernel := ?_, apart := ?_, owned := ?_ }
  · intro q proc ptr hq has
    obtain ⟨old, hq, has, hcr3⟩ := hcases q proc ptr hq has
    rw [hcr3]
    exact h.space q old ptr hq has
  · intro q proc hq has
    rcases update_cases hq with ⟨-, hq⟩ | ⟨-, hq⟩
    · exact hkernel proc hq has
    · exact h.kernel q proc hq has
  · intro q r proc proc' ptr hq hr has has'
    obtain ⟨y, hy, hyas, -⟩ := hcases q proc ptr hq has
    obtain ⟨y', hy', hyas', -⟩ := hcases r proc' ptr hr has'
    exact h.apart q r y y' ptr hy hy' hyas hyas'
  · intro a ha
    obtain ⟨q, old, hq, has⟩ := h.owned a ha
    rcases eq_or_ne q p with rfl | hne
    · obtain ⟨proc, rfl, has⟩ := hold old _ hq has
      exact ⟨q, proc, update_self _ _ _, has⟩
    · exact ⟨q, old, (update_of_ne hne _ _).trans hq, has⟩

/-- `as_destroy` finds the address space of a process. -/
theorem asDestroy_eq (ha : a ∈ s.live) :
    asDestroy s a.ptr =
      { s with live := s.live.filter fun b => b.id ≠ a.id, destroyed := a.id :: s.destroyed } := by
  have hfind : s.live.find? (fun b => b.ptr = a.ptr) = some a := by
    cases hf : s.live.find? (fun b => b.ptr = a.ptr) with
    | none =>
      have hnone := find?_eq_none.mp hf a ha
      simp at hnone
    | some b =>
      have hb := mem_of_find?_eq_some hf
      have hptr : b.ptr = a.ptr := by simpa using find?_some hf
      rw [h.distinct b hb a ha (.inr hptr)]
  simp [asDestroy, destroyWhere, hfind]

/-- A process is removed with its address space. -/
theorem remove (hp : s.procs p = some proc) (has : proc.as = some ptr) :
    Coherent ((asDestroy s ptr).setProc p none) := by
  obtain ⟨a, ha, rfl, -⟩ := h.space p proc ptr hp has
  rw [h.asDestroy_eq ha]
  have hold : ∀ q x, update s.procs p none q = some x → q ≠ p ∧ s.procs q = some x := by
    intro q x hq
    rcases update_cases hq with ⟨-, ⟨⟩⟩ | hq
    exact hq
  have hmem : ∀ b, b ∈ s.live.filter (fun b => b.id ≠ a.id) ↔ b ∈ s.live ∧ b.id ≠ a.id := by
    intro b
    simp
  constructor
  · intro q x x' hq hx
    obtain ⟨hne, hq⟩ := hold q x hq
    obtain ⟨b, hb, hptr, hcr3⟩ := h.space q x x' hq hx
    refine ⟨b, (hmem b).mpr ⟨hb, fun hid => hne ?_⟩, hptr, hcr3⟩
    rw [h.distinct b hb a ha (.inl hid)] at hptr
    exact h.apart q p x proc a.ptr hq hp (hptr ▸ hx) has
  · exact fun q x hq => h.kernel q x (hold q x hq).2
  · exact fun q r x x' y hq hr => h.apart q r x x' y (hold q x hq).2 (hold r x' hr).2
  · intro b hkept
    obtain ⟨hb, hid⟩ := (hmem b).mp hkept
    obtain ⟨q, x, hq, hx⟩ := h.owned b hb
    refine ⟨q, x, (update_of_ne ?_ _ _).trans hq, hx⟩
    rintro rfl
    obtain rfl := Option.some.inj (hq.symm.trans hp)
    have hptr : b.ptr = a.ptr := Option.some.inj (hx.symm.trans has)
    exact hid (congrArg AddressSpace.id (h.distinct b hb a ha (.inr hptr)))
  · intro n
    apply Iff.trans (h.numbered n)
    constructor
    · rintro (hd | ⟨b, hb, rfl⟩)
      · exact .inl (mem_cons_of_mem _ hd)
      · by_cases hid : b.id = a.id
        · exact .inl (hid ▸ mem_cons_self)
        · exact .inr ⟨b, (hmem b).mpr ⟨hb, hid⟩, rfl⟩
    rintro (hd | ⟨b, hb, rfl⟩)
    · rcases mem_cons.mp hd with rfl | hd
      · exact .inr ⟨a, ha, rfl⟩
      · exact .inl hd
    · exact .inr ⟨b, ((hmem b).mp hb).1, rfl⟩
  · refine ⟨nodup_cons.mpr ⟨h.once.2 a ha, h.once.1⟩, fun b hb => ?_⟩
    obtain ⟨hb, hid⟩ := (hmem b).mp hb
    exact not_mem_cons_of_ne_of_not_mem hid (h.once.2 b hb)
  · exact fun b hb c hc => h.distinct b ((hmem b).mp hb).1 c ((hmem c).mp hc).1
  · exact h.stray

end

/-! ### The calls -/

section

variable (h : Coherent s)
include h

theorem filter_created : s.live.filter (fun b => b.id ≠ s.created) = s.live := by
  apply filter_eq_self.mpr
  intro a ha
  simpa using h.id_ne ha

theorem asDestroy_asCreate (ptr cr3 : Nat) : asDestroy (asCreate s ptr cr3) ptr = s.discard := by
  have hfind : (asCreate s ptr cr3).live.find? (fun a => a.ptr = ptr) =
      some ⟨s.created, ptr, cr3⟩ :=
    find?_cons_of_pos (by simp)
  have hfilter : (asCreate s ptr cr3).live.filter (fun b => b.id ≠ s.created) = s.live :=
    (filter_cons_of_neg (by simp)).trans h.filter_created
  simp only [asDestroy, destroyWhere, hfind, hfilter]
  rfl

/-- In a `fork` that succeeds, the first address space of the child is replaced by the
clone. -/
theorem asDestroy_replaced {ptr' cr3'} (hne : ptr' ≠ ptr) :
    asDestroy (asCreate (asCreate s ptr cr3) ptr' cr3') ptr = asCreate s.discard ptr' cr3' := by
  have hfind : (asCreate (asCreate s ptr cr3) ptr' cr3').live.find? (fun a => a.ptr = ptr) =
      some ⟨s.created, ptr, cr3⟩ :=
    (find?_cons_of_neg (by simpa using hne)).trans (find?_cons_of_pos (by simp))
  have hfilter : (asCreate (asCreate s ptr cr3) ptr' cr3').live.filter
      (fun b => b.id ≠ s.created) = ⟨s.created + 1, ptr', cr3'⟩ :: s.live :=
    (filter_cons_of_pos (by simp [asCreate])).trans
      (congrArg _ ((filter_cons_of_neg (by simp)).trans h.filter_created))
  simp only [asDestroy, destroyWhere, hfind, hfilter]
  rfl

theorem processExit (p : Nat) : Coherent (processExit s p) := by
  unfold Proc.processExit
  cases hp : s.procs p with
  | none =>
    rw [Option.map_none, ← hp, update_eq_self]
    exact h
  | some proc =>
    refine h.setProc ?_ ?_ ?_
    · rintro _ ptr ⟨⟩ has
      exact ⟨proc, hp, has, rfl⟩
    · intro old ptr hold has
      obtain rfl := Option.some.inj (hp.symm.trans hold)
      exact ⟨_, rfl, has⟩
    · rintro _ ⟨⟩ has
      exact h.kernel p proc hp has

theorem processDestroy (p : Nat) : Coherent (processDestroy s p) := by
  unfold Proc.processDestroy
  cases hp : s.procs p with
  | none => exact h
  | some proc =>
    dsimp only
    split
    · exact h
    cases has : proc.as with
    | none =>
      refine h.setProc (by simp) (fun old ptr hold hptr => ?_) (by simp)
      obtain rfl := Option.some.inj (hp.symm.trans hold)
      cases has.symm.trans hptr
    | some ptr => exact h.remove hp has

end

end Coherent

theorem setProc_none {s : ProcTable} {c : Nat} (hc : s.procs c = none) : s.setProc c none = s := by
  simp [setProc, ← hc]

theorem setProc_setProc (c : Nat) (x y : Option Process) :
    (s.setProc c x).setProc c y = s.setProc c y := by
  simp [setProc]

theorem asCreate_setProc (c ptr cr3 : Nat) (x : Option Process) :
    asCreate (s.setProc c x) ptr cr3 = (asCreate s ptr cr3).setProc c x := rfl

theorem procs_setProc_self (c : Nat) (x : Option Process) :
    (s.setProc c x).procs c = x := update_self _ _ _

theorem asDestroy_setProc (c ptr : Nat) (x : Option Process) :
    asDestroy (s.setProc c x) ptr = (asDestroy s ptr).setProc c x := by
  simp only [asDestroy, destroyWhere, setProc]
  cases s.live.find? fun a => a.ptr = ptr <;> rfl

/-- A child that never ran is removed with the address space it has. -/
theorem exitAndDestroy_eq {s : ProcTable} {c : Nat} {proc : Process} (hc : s.procs c = some proc) :
    processDestroy (processExit s c) c =
      (match proc.as with | some ptr => asDestroy s ptr | none => s).setProc c none := by
  have hexit : processExit s c = s.setProc c (some { proc with state := .zombie }) := by
    simp [processExit, setProc, hc]
  rw [hexit]
  unfold processDestroy
  simp only [procs_setProc_self]
  rw [if_neg (by simp)]
  cases proc.as with
  | none => exact setProc_setProc s c _ none
  | some ptr => simp [asDestroy_setProc, setProc_setProc]

namespace Coherent

variable {s : ProcTable} {c loaded : Nat} {fdOk threadOk : Bool}

/-- A `fork` that fails in `as_clone` leaves nothing behind. -/
theorem sysFork_failed (h : Coherent s) (hc : s.procs c = none) (space : Option (Nat × Nat)) :
    Coherent (sysFork s c loaded space none fdOk threadOk) := by
  cases space with
  | none =>
    have hfork : sysFork s c loaded none none fdOk threadOk = s := by
      show Proc.processDestroy (Proc.processExit (s.setProc c _) c) c = s
      rw [exitAndDestroy_eq (update_self _ _ _), setProc_setProc, setProc_none hc]
    rw [hfork]
    exact h
  | some made =>
    obtain ⟨ptr, cr3⟩ := made
    have hfork : sysFork s c loaded (some (ptr, cr3)) none fdOk threadOk = s.discard := by
      show Proc.processDestroy (Proc.processExit ((asCreate s ptr cr3).setProc c _) c) c = _
      rw [exitAndDestroy_eq (update_self _ _ _)]
      simp only [asDestroy_setProc, setProc_setProc, h.asDestroy_asCreate]
      exact setProc_none hc
    rw [hfork]
    exact h.discard

/-- A `fork` that succeeds gives the child the clone. -/
theorem sysFork_done (h : Coherent s) (hc : s.procs c = none) {ptr cr3}
    (hfresh : (processCreate s c loaded space).Fresh (ptr, cr3)) :
    Coherent (sysFork s c loaded space (some (ptr, cr3)) true true) := by
  cases space with
  | none =>
    have hfork : sysFork s c loaded none (some (ptr, cr3)) true true =
        (asCreate s ptr cr3).setProc c (some ⟨.ready, cr3, some ptr⟩) := by
      unfold sysFork processCreate
      simp [asCreate_setProc, procs_setProc_self, setProc_setProc]
    rw [hfork]
    exact h.add hc hfresh .ready
  | some made =>
    obtain ⟨ptr', cr3'⟩ := made
    have hne : ptr ≠ ptr' := fun he => hfresh _ mem_cons_self he.symm
    have hfork : sysFork s c loaded (some (ptr', cr3')) (some (ptr, cr3)) true true =
        (asCreate s.discard ptr cr3).setProc c (some ⟨.ready, cr3, some ptr⟩) := by
      unfold sysFork processCreate
      simp [asCreate_setProc, procs_setProc_self, asDestroy_setProc, setProc_setProc,
        h.asDestroy_replaced hne]
    rw [hfork]
    exact h.discard.add hc (fun a ha => hfresh a (mem_cons_of_mem _ ha)) .ready

theorem processCreate (h : Coherent s) {p} (hp : s.procs p = none)
    (hfresh : ∀ a ∈ space, s.Fresh a) (hloaded : space = none → loaded = s.kernelCr3) :
    Coherent (processCreate s p loaded space) := by
  cases space with
  | none =>
    rw [hloaded rfl]
    refine h.setProc ?_ (by simp [hp]) ?_
    · rintro _ ptr ⟨⟩ ⟨⟩
    · rintro _ ⟨⟩ -
      rfl
  | some made => exact h.add hp (hfresh made rfl) .embryo

end Coherent

end ProcTable

/-! ### Whole histories -/

def Exec.succeeds : Exec → Bool
  | .done _ _ => true
  | _ => false

/-- No `execve` succeeds, a `fork` whose `as_clone` succeeds does so too, and a process that
gets no address space is created on the kernel's page tables. -/
def ProcCall.Tidy : ProcCall → Prop
  | .create _ loaded space => space = none → loaded = s.kernelCr3
  | .fork _ _ _ _ clone fdOk threadOk => clone ≠ none → fdOk = true ∧ threadOk = true
  | .execve _ outcome => outcome.succeeds = false
  | .exit _ => True
  | .destroy _ => True

instance (s : ProcTable) (c : ProcCall) : Decidable (c.Tidy s) := by
  cases c <;> unfold ProcCall.Tidy <;> infer_instance

namespace ProcTable

theorem Coherent.of_start (kernelProc kernelCr3 : Nat) : Coherent (start kernelProc kernelCr3) := by
  have hkernel : ∀ p proc, (start kernelProc kernelCr3).procs p = some proc →
      proc = ⟨.running, kernelCr3, none⟩ := by
    intro p proc hp
    simp only [start] at hp
    split at hp
    · exact (Option.some.inj hp).symm
    · cases hp
  constructor
  · intro p proc ptr hp has
    rw [hkernel p proc hp] at has
    cases has
  · intro p proc hp _
    rw [hkernel p proc hp]
    rfl
  · intro p q proc _ ptr hp _ has
    rw [hkernel p proc hp] at has
    cases has
  all_goals simp [start]

theorem Coherent.step {s s' c} (h : Coherent s) (htidy : c.Tidy s)
    (hstep : s.step c = some s') : Coherent s' := by
  cases c with
  | create p loaded space =>
    obtain ⟨hok, rfl⟩ := ite_eq_some hstep
    exact h.processCreate hok.1 hok.2 htidy
  | fork p c loaded space clone fdOk threadOk =>
    obtain ⟨hok, rfl⟩ := ite_eq_some hstep
    obtain ⟨-, hc, -, hclone⟩ := hok
    cases clone with
    | none => exact h.sysFork_failed hc space
    | some clone =>
      obtain ⟨rfl, rfl⟩ := htidy (by simp)
      exact h.sysFork_done hc (hclone clone rfl)
  | execve p outcome =>
    obtain ⟨-, hstep⟩ := Option.ite_none_right_eq_some.mp hstep
    cases outcome with
    | early =>
      cases hstep
      exact h
    | late ptr cr3 =>
      obtain ⟨-, rfl⟩ := ite_eq_some hstep
      simp only [sysExecve, h.asDestroy_asCreate]
      exact h.discard
    | done ptr cr3 => cases htidy
  | exit p =>
    cases hstep
    exact h.processExit p
  | destroy p =>
    cases hstep
    exact h.processDestroy p

end ProcTable

/-- In every history of tidy calls, processes and address spaces agree. -/
theorem spaces_coherent {kernelProc kernelCr3 : Nat} {calls : List ProcCall} {s : ProcTable}
    (hrun : GuardedRun ProcTable.step (fun s c => c.Tidy s) (ProcTable.start kernelProc kernelCr3)
      calls s) : s.Coherent :=
  hrun.inv ProcTable.Coherent (fun _ _ _ h => h.step)
    (ProcTable.Coherent.of_start kernelProc kernelCr3)

/-- A process forks twice, once in vain, an `execve` fails, and the child is destroyed; its
structure and page tables are used again. -/
def forkAndReap : List ProcCall :=
  [.create 1 0x1000 (some (10, 0x8000)),
    .fork 1 2 0x8000 (some (11, 0x9000)) (some (12, 0xA000)) true true,
    .fork 1 3 0x8000 none none true true, .execve 2 (.late 11 0x9000), .exit 2, .destroy 2,
    .fork 1 2 0x8000 none (some (12, 0xA000)) true true]

theorem spaces_coherent_forkAndReap :
    ∃ s, GuardedRun ProcTable.step (fun s c => c.Tidy s) (ProcTable.start 0 0x1000)
      forkAndReap s ∧ s.destroyed = [2, 3, 1] ∧ s.Coherent := by
  apply exists_and_of (by decide +kernel)
  intro s hrun _
  exact spaces_coherent hrun

/-- A process replaces its program: its page tables are the new ones, but its pointer is
still to the old address space, which is destroyed. -/
theorem execve_splits_space : ∃ s, run ProcTable.step (ProcTable.start 0 0x1000)
        [.create 1 0x1000 (some (10, 0x8000)), .execve 1 (.done 11 0x9000)] = some s ∧
      s.procs 1 = some ⟨.embryo, 0x9000, some 10⟩ ∧ s.live = [⟨1, 11, 0x9000⟩] ∧
      s.destroyed = [0] ∧ ¬ s.Coherent := by
  apply exists_and_of₃ (by decide +kernel)
  intro s _ hproc hlive _ hcoherent
  obtain ⟨a, ha, hptr, -⟩ := hcoherent.space 1 _ 10 hproc rfl
  rw [hlive] at ha
  obtain rfl := mem_singleton.mp ha
  cases hptr

end Kurios.Proc
