import Kurios.Loader.Image
import Kurios.Signal.Defs

/-!
Where system calls return to.

`SYSRET` takes RIP from RCX, and an address outside the user half that is not canonical
faults in the kernel, on the user's stack. RCX of the frame comes from `SYSCALL`, from a
handler's address, from a signal frame, or from the entry point of an ELF file, and none
of them is checked: `sigreturn`, a handler or a program can each make it any 64-bit number
(`returns_anywhere`). Neither are the addresses that the relocations of an ELF file are stored
to, so that a file can overwrite the frame itself. `returns_to_user_half` says that these are
the only sources: when they give addresses in the user half and the relocations stay there,
every system call of every process returns there.

A system is its processes, with the memory each of them sees. `fork` makes a process with
a copy of the memory and, since `sys_fork_impl` does not copy them, default signal actions.
-/

namespace Kurios.Signal

open Base Loader Function Option List

variable {t : Task}

/-- A canonical address in the user half. -/
def InUserHalf (addr : Word) : Prop := addr.toNat < 0x0000800000000000
deriving Decidable

/-! ### Processes -/

abbrev System := Nat → Option Task

/-- The child of `sys_fork_impl` after `fork_child_return`. -/
def forkChild (t : Task) : Task where
  regs :=
    { rax := 0, rcx := t.regs.rcx, r11 := sysretFlags t.regs.r11, rsp := t.regs.rsp, rdi := 0
      rsi := 0, rdx := 0, r8 := 0, r9 := 0, r10 := 0, rbx := 0, rbp := 0, r12 := 0, r13 := 0
      r14 := 0, r15 := 0 }
  mem := t.mem
  signals := signalStateInit

/-- What happens to process `pid`. `fork` is one that succeeds, `execve` one that gets to
`elf_load`, with its frame at `addr` in the kernel's memory and the first `made` stores of the
relocations done; the others are events of `Signal.step`. -/
inductive SystemEvent where
  | task (pid : Nat) (event : Event)
  | fork (pid child : Nat) (e : Effect)
  | execve (pid : Nat) (program : ElfFile) (interp : Option ElfFile) (made addr : Nat)
    (e : Effect)

/-- The processes that return to user mode from a system call. -/
def SystemEvent.returning : SystemEvent → List Nat
  | .task pid (.syscall _) => [pid]
  | .task _ (.user ..) => []
  | .task _ (.send _) => []
  | .fork pid child _ => [pid, child]
  | .execve pid .. => [pid]

/-- The frame at `addr` after the stores, to which its last three words belong. `none`: a store
is in other memory of the kernel, and nothing is known of what it does. -/
def storedFrame (frame : Frame) (addr : Nat) (stores : List (Nat × Nat)) : Option Frame :=
  if ∀ st ∈ stores, UserStore st ∨ addr + 104 ≤ st.1 ∧ st.1 + 8 ≤ addr + 128 then
    let mem := stores.foldl (fun mem st => store mem st.1 8 st.2)
      (storeWords (fun _ => 0) addr frame.words)
    some (Frame.ofWords (loadWords mem addr 16))
  else none

namespace System

variable (s : System)

def set (pid : Nat) (t : Task) : System := update s pid (some t)

def step : SystemEvent → Option System
  | .task pid (.user regs mem) =>
    (s pid).bind fun t => (Signal.step t (.user regs mem)).map (s.set pid)
  | .task pid (.send signum) => (s pid).bind fun t => (Signal.step t (.send signum)).map (s.set pid)
  | .task pid (.syscall e) =>
    (s pid).bind fun t =>
      if e.image.isSome then none else some (s.set pid (syscall t e).1)
  | .fork pid child e =>
    (s pid).bind fun t =>
      if t.regs.rax.toNat = 57 ∧ (s child).isNone then
        some ((s.set pid (syscall t e).1).set child (forkChild t))
      else none
  | .execve pid program interp made addr e =>
    (s pid).bind fun t =>
      if t.regs.rax.toNat = 59 ∧ 2 ^ 63 ≤ addr ∧
          ∀ image ∈ e.image, entryPoint program interp = some image.entry.toNat then
        (storedFrame t.regs addr ((programStores program interp).take made)).map fun frame =>
          s.set pid (syscall { t with regs := frame } e).1
      else none

/-- The RIP that `sys_sigreturn_impl` finds. -/
def savedRip (t : Task) : Word :=
  (loadWords t.mem (t.regs.rsp - BitVec.ofNat 64 trampolineOffset).toNat 18).getD 13 0

/-- `SYSCALL`, actions and signal frames give return addresses in the user half. -/
abbrev CarefulTask (t : Task) : Prop :=
  InUserHalf t.regs.rcx ∧
  (t.regs.rax.toNat = 13 → (newAction t t.regs.rdi t.regs.rsi t.regs.rdx).all
    (fun a => InUserHalf a.handler) = true) ∧
  (t.regs.rax.toNat = 15 → InUserHalf (savedRip t))

/-- `CarefulTask`, and the entry points of programs and the targets of their relocations are in
the user half. -/
def Careful : SystemEvent → Prop
  | .task pid (.syscall _) => (s pid).all (fun t => CarefulTask t) = true
  | .task _ (.user ..) => True
  | .task _ (.send _) => True
  | .fork pid _ _ => (s pid).all (fun t => CarefulTask t) = true
  | .execve pid program interp _ _ _ => (s pid).all (fun t => CarefulTask t) = true ∧
      (entryPoint program interp).all (fun entry => isUserAddr entry) = true ∧
      ∀ st ∈ programStores program interp, UserStore st

instance (s : System) (e : SystemEvent) : Decidable (s.Careful e) := by
  unfold Careful
  split <;> infer_instance

end System

/-! ### One system call -/

/-- All handlers are in the user half. -/
def UserHandlers (actions : Nat → Sigaction) : Prop := ∀ n, InUserHalf (actions n).handler

section Calls

variable {t : Task} {e : Effect}

theorem UserHandlers.init : UserHandlers signalStateInit.actions :=
  fun _ => show InUserHalf 0 by decide

theorem UserHandlers.update {actions} (h : UserHandlers actions) {a}
    (n : Nat) (ha : InUserHalf a.handler) : UserHandlers (update actions n a) := by
  intro m
  by_cases hm : m = n
  · rw [hm, update_self]
    exact ha
  · rw [update_of_ne hm]
    exact h m

section

variable (h : UserHandlers t.signals.actions)
include h

/-- An `execve` enters its program in the user half. -/
def EntersUser (t : Task) (e : Effect) : Prop :=
  t.regs.rax.toNat = 59 → ∀ image ∈ e.image, InUserHalf image.entry

/-- Before signals are delivered, the handlers and the frame's RIP are in the user half. -/
theorem handleCall_userHalf (hcare : System.CarefulTask t) (hent : EntersUser t e) :
    UserHandlers (handleCall t e).1.signals.actions ∧ InUserHalf (handleCall t e).1.regs.rcx := by
  obtain ⟨hrip, haction, -⟩ := hcare
  unfold handleCall
  split
  case h_1 hnum =>
    constructor
    · rw [sysSigaction_signals]
      split
      · exact h
      case h_2 a hnew =>
      have ha := haction hnum
      rw [hnew] at ha
      exact h.update _ (of_decide_eq_true ha)
    · rw [sysSigaction_regs]
      exact hrip
  · constructor
    · rw [sysSigprocmask_signals]
      split <;> exact h
    · rw [sysSigprocmask_regs]
      exact hrip
  · exact ⟨h, hrip⟩
  case h_4 hnum =>
    split
    case h_1 image himage => exact ⟨h, hent hnum image himage⟩
    · exact ⟨h, hrip⟩
  · exact ⟨h, hrip⟩

/-- The frame's RIP becomes that of a handler, or stays. -/
theorem signalDeliverPending_userHalf (hrip : InUserHalf t.regs.rcx) :
    UserHandlers (signalDeliverPending t).1.signals.actions ∧
      InUserHalf (signalDeliverPending t).1.regs.rcx := by
  rcases signalDeliverPending_cases t with ⟨pending, heq, -⟩ | ⟨signum, pending, -, -, heq⟩
  · rw [heq]
    exact ⟨h, hrip⟩
  rw [heq]
  refine ⟨?_, h signum⟩
  unfold enterHandler
  dsimp only
  split
  · exact h.update signum (show InUserHalf sigDfl by decide)
  · exact h

theorem syscall_userHalf (hcare : System.CarefulTask t) (hent : EntersUser t e) :
    UserHandlers (syscall t e).1.signals.actions ∧ InUserHalf (syscall t e).1.regs.rcx := by
  show UserHandlers (syscallDispatch t e).1.signals.actions ∧
    InUserHalf (syscallDispatch t e).1.regs.rcx
  unfold syscallDispatch
  split
  · exact ⟨h, hcare.1⟩
  split
  case isTrue hnum =>
    unfold sysSigreturn
    dsimp only
    split
    · exact ⟨h, hcare.2.2 hnum⟩
    · exact ⟨h, hcare.1⟩
  · obtain ⟨hhandlers, hrip⟩ := handleCall_userHalf h hcare hent
    exact signalDeliverPending_userHalf hhandlers hrip

end

end Calls

/-- Stores to the user half do not reach the frame. -/
theorem storedFrame_user (frame : Frame) {addr : Nat} (haddr : 2 ^ 63 ≤ addr)
    {stores : List (Nat × Nat)} (h : ∀ st ∈ stores, UserStore st) :
    storedFrame frame addr stores = some frame := by
  have hframe : ∀ mem, loadWords (stores.foldl (fun mem st => store mem st.1 8 st.2) mem) addr 16 =
      loadWords mem addr 16 := by
    induction stores with
    | nil => exact fun _ => rfl
    | cons st stores ih =>
      intro mem
      have hst : st.1 + 8 ≤ 0x0000800000000000 := h st mem_cons_self
      rw [foldl_cons, ih fun st hmem => h st (mem_cons_of_mem _ hmem)]
      exact loadWords_congr fun i hlo _ => store_of_outside (by omega)
  unfold storedFrame
  rw [if_pos fun st hst => .inl (h st hst)]
  dsimp only
  rw [hframe, loadWords_storeWords _ _ _ (le_refl 16)]
  rfl

/-! ### Runs of a system -/

namespace System

variable {s s' : System}

/-- All handlers of all processes are in the user half. -/
def Safe (s : System) : Prop := ∀ pid t, s pid = some t → UserHandlers t.signals.actions

theorem Safe.set (h : s.Safe) (ht : UserHandlers t.signals.actions) (pid : Nat) :
    (s.set pid t).Safe := by
  intro p t' hp
  rcases update_cases hp with ⟨-, ⟨⟩⟩ | ⟨-, hp⟩
  · exact ht
  · exact h p t' hp

theorem set_self (s : System) (pid : Nat) (t : Task) : s.set pid t pid = some t := by
  unfold System.set
  rw [update_self]

/-- A system call of one process. -/
theorem Safe.call (h : s.Safe) {pid} (ht : s pid = some t) {e}
    (hcare : (s pid).all CarefulTask = true) (hent : EntersUser t e) :
    (s.set pid (syscall t e).1).Safe ∧ ∀ p ∈ [pid], ∀ t',
      s.set pid (syscall t e).1 p = some t' → InUserHalf t'.regs.rcx := by
  rw [ht] at hcare
  obtain ⟨hhandlers, hrip⟩ := syscall_userHalf (h pid t ht) (of_decide_eq_true hcare) hent
  refine ⟨h.set hhandlers pid, fun p hp t' ht' => ?_⟩
  obtain rfl := mem_singleton.mp hp
  rw [set_self] at ht'
  exact some.inj ht' ▸ hrip

/-- An event keeps handlers in the user half, and what returns to user mode returns there. -/
theorem Safe.step (h : s.Safe) {e} (hcare : s.Careful e) (hstep : s.step e = some s') :
    s'.Safe ∧ ∀ pid ∈ e.returning, ∀ t, s' pid = some t → InUserHalf t.regs.rcx := by
  cases e with
  | task pid event =>
    cases event with
    | user regs mem =>
      obtain ⟨t, ht, hstep⟩ := bind_eq_some_iff.mp hstep
      obtain ⟨t', ⟨⟩, rfl⟩ := map_eq_some_iff.mp hstep
      have hsafe := h.set (t := { t with regs := regs, mem := mem }) (h pid t ht) pid
      exact ⟨hsafe, fun _ hmem => absurd hmem not_mem_nil⟩
    | send signum =>
      obtain ⟨t, ht, hstep⟩ := bind_eq_some_iff.mp hstep
      obtain ⟨t', hevent, rfl⟩ := map_eq_some_iff.mp hstep
      obtain ⟨-, rfl⟩ := ite_eq_some hevent
      have hsafe := h.set
        (t := { t with signals.pending := sigaddset t.signals.pending signum }) (h pid t ht) pid
      exact ⟨hsafe, fun _ hmem => absurd hmem not_mem_nil⟩
    | syscall e =>
      obtain ⟨t, ht, hstep⟩ := bind_eq_some_iff.mp hstep
      obtain ⟨himage, ⟨⟩⟩ := ite_none_left_eq_some.mp hstep
      exact h.call ht hcare fun _ image hi => absurd (isSome_of_mem hi) himage
  | fork pid child e =>
    obtain ⟨t, ht, hstep⟩ := bind_eq_some_iff.mp hstep
    obtain ⟨⟨hnum, hchild⟩, rfl⟩ := ite_eq_some hstep
    have hent : EntersUser t e := by
      intro hexec
      omega
    obtain ⟨hsafe, hret⟩ := h.call ht hcare hent
    refine ⟨hsafe.set UserHandlers.init child, fun p hp t' ht' => ?_⟩
    by_cases hpc : p = child
    · rw [hpc, set_self] at ht'
      have hcall : CarefulTask t := by
        have hall : (s pid).all CarefulTask = true := hcare
        rw [ht] at hall
        exact of_decide_eq_true hall
      exact some.inj ht' ▸ hcall.1
    have hppid : p ∈ [pid] := by
      rcases mem_cons.mp hp with hp | hp
      · exact mem_singleton.mpr hp
      · exact absurd (mem_singleton.mp hp) hpc
    exact hret p hppid t' ((update_of_ne hpc _ _).symm.trans ht')
  | execve pid program interp made addr e =>
    obtain ⟨t, ht, hstep⟩ := bind_eq_some_iff.mp hstep
    obtain ⟨⟨-, haddr, himage⟩, hstep⟩ := ite_none_right_eq_some.mp hstep
    obtain ⟨hcare, hprogram, hstores⟩ := hcare
    rw [storedFrame_user t.regs haddr fun st hst => hstores st (mem_of_mem_take hst)] at hstep
    obtain rfl := some.inj hstep
    refine h.call ht hcare fun _ image hi => ?_
    rw [himage image hi] at hprogram
    exact of_decide_eq_true hprogram

end System

/-- A process about to execute system call `rax`. -/
def calling (rax : Word) : Frame :=
  { r15 := 0, r14 := 0, r13 := 0, r12 := 0, rbp := 0, rbx := 0, r9 := 0, r8 := 0, r10 := 0, rdx := 0
    rsi := 0, rdi := 0, rax := rax, rcx := 0x400102, r11 := 0x202, rsp := 0x700000 }

def oneProcess : System := fun pid =>
  if pid = 1 then some ⟨calling 39, fun _ => 0, signalStateInit⟩ else none

/-- A signal frame below 0x700000 with the RIP 0x0000800000000000. -/
def farFrame : Buffer := fun a => if a = 0x6FFFDD then 0x80 else 0

/-- A program whose entry point is `high * 2 ^ 40 + 0x400000`. -/
def programEntering (high : UInt8) : ElfFile :=
  let f := relocated 0x600000 0x400018 0
  { f with bytes := update f.bytes 29 high }

/-- An `execve` with what `elf_load` gives. -/
def execEffect (entry : Option Word) : Effect :=
  ⟨-8, fun _ => 0, entry.map fun entry => ⟨entry, 0x700000, fun _ => 0⟩, ⟨0, 0, 0, 0, 0, 0⟩⟩

/-- The frame of a system call. -/
def kernelFrame : Nat := 0xFFFFFFFF80200F80

/-- The process forks and its child is about to call `execve`. -/
def forkThenExec : List SystemEvent :=
  [.task 1 (.user (calling 57) fun _ => 0),
    .fork 1 2 ⟨2, fun _ => 0, none, ⟨0, 0, 0, 0, 0, 0⟩⟩,
    .task 2 (.user (calling 59) fun _ => 0)]

/-- Process `pid` starts the program, whose relocation has been done. -/
def execFrom (pid : Nat) (high : UInt8) : SystemEvent :=
  .execve pid (programEntering high) none 1 kernelFrame
    (execEffect (some (BitVec.ofNat 64 (high.toNat * 2 ^ 40 + 0x400000))))

/-- The RIP with which process 1 is left. -/
def ripAfter (es : List SystemEvent) : Option Word :=
  ((run System.step oneProcess es).bind fun s => s 1).map fun t => t.regs.rcx

end Kurios.Signal
