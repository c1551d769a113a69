import Kurios.Base.Bytes

/-!
Signals of one process: `kernel/signal/signal.c`, the signal system calls and
`syscall_dispatch` of `kernel/syscall/syscall.c`, and the way back to user mode in
`kernel/syscall/syscall_entry.asm`.

A process has one thread. `Task` is what the signal code reads and writes: the thread's
registers, the user half of its memory and the `signal_state_t` of the process. The
registers are those of `syscall_frame_t`, in user mode as well: there `rcx` is RIP and
`r11` is RFLAGS. User pages are present wherever the kernel reads or writes them.
What the default action of a signal does to the process is not part of a task;
`signalDeliverPending` says for which signal it is taken.
-/

namespace Kurios.Signal

open Base Function Option

/-! ### Signal sets -/

/-- `NSIG`. -/
def nsig : Nat := 32

def sigkill : Nat := 9
def sigsegv : Nat := 11
def sigchld : Nat := 17
def sigcont : Nat := 18
def sigstop : Nat := 19
def sigtstp : Nat := 20
def sigttin : Nat := 21
def sigttou : Nat := 22

/-- `1UL << n`. -/
def bit (n : Nat) : Word := 1 <<< n

def sigaddset (set : Word) (signo : Nat) : Word := set ||| bit (signo - 1)
def sigdelset (set : Word) (signo : Nat) : Word := set &&& ~~~bit (signo - 1)
def sigismember (set : Word) (signo : Nat) : Bool := (set &&& bit (signo - 1)) != 0

/-! ### The state of a process -/

/-- `sigaction_t`: four words. `flags` is `sa_flags` with the padding behind it. -/
structure Sigaction where
  handler : Word
  mask : Word
  flags : Word
  restorer : Word
deriving DecidableEq, Repr

def sigDfl : Word := 0
def sigIgn : Word := 1

def Sigaction.words (a : Sigaction) : List Word := [a.handler, a.mask, a.flags, a.restorer]

def Sigaction.ofWords (ws : List Word) : Sigaction :=
  ⟨ws.getD 0 0, ws.getD 1 0, ws.getD 2 0, ws.getD 3 0⟩

def Sigaction.noDefer (a : Sigaction) : Bool := (a.flags &&& 0x40000000) != 0
def Sigaction.resetHand (a : Sigaction) : Bool := (a.flags &&& 0x80000000) != 0

/-- `signal_state_t`. -/
structure SignalState where
  pending : Word
  blocked : Word
  actions : Nat → Sigaction

/-- `signal_state_init`. -/
def signalStateInit : SignalState where
  pending := 0
  blocked := 0
  actions := fun _ => ⟨sigDfl, 0, 0, 0⟩

/-- `syscall_frame_t`. -/
structure Frame where
  r15 : Word
  r14 : Word
  r13 : Word
  r12 : Word
  rbp : Word
  rbx : Word
  r9 : Word
  r8 : Word
  r10 : Word
  rdx : Word
  rsi : Word
  rdi : Word
  rax : Word
  rcx : Word
  r11 : Word
  rsp : Word
deriving DecidableEq, Repr

def Frame.words (f : Frame) : List Word :=
  [f.r15, f.r14, f.r13, f.r12, f.rbp, f.rbx, f.r9, f.r8, f.r10, f.rdx, f.rsi, f.rdi, f.rax,
    f.rcx, f.r11, f.rsp]

def Frame.ofWords (ws : List Word) : Frame :=
  { r15 := ws.getD 0 0, r14 := ws.getD 1 0, r13 := ws.getD 2 0, r12 := ws.getD 3 0
    rbp := ws.getD 4 0, rbx := ws.getD 5 0, r9 := ws.getD 6 0, r8 := ws.getD 7 0
    r10 := ws.getD 8 0, rdx := ws.getD 9 0, rsi := ws.getD 10 0, rdi := ws.getD 11 0
    rax := ws.getD 12 0, rcx := ws.getD 13 0, r11 := ws.getD 14 0, rsp := ws.getD 15 0 }

structure Task where
  regs : Frame
  mem : Buffer
  signals : SignalState

/-! ### User memory -/

def efault : Word := BitVec.ofInt 64 (-14)
def einval : Word := BitVec.ofInt 64 (-22)
def enosys : Word := BitVec.ofInt 64 (-38)

/-- `USER_ADDR_MAX`. -/
def userAddrMax : Nat := 0x00007FFFFFFFFFFF

/-- `access_ok`, for a size that is not zero. The checks for the hole between the halves
follow from the others. -/
def accessOk (addr : Word) (size : Nat) : Bool :=
  addr.toNat + (size - 1) < 2 ^ 64 ∧ addr.toNat ≤ userAddrMax ∧
    addr.toNat + (size - 1) ≤ userAddrMax

/-- `copy_to_user` of an array of words; nothing for a null pointer. -/
def copyToUser (mem : Buffer) (dst : Word) (ws : List Word) : Option Buffer :=
  if dst = 0 then some mem
  else if accessOk dst (8 * ws.length) then some (storeWords mem dst.toNat ws)
  else none

/-- `copy_from_user` of `n` words. -/
def copyFromUser (mem : Buffer) (src : Word) (n : Nat) : Option (List Word) :=
  if accessOk src (8 * n) then some (loadWords mem src.toNat n) else none

/-! ### The system calls -/

variable (t : Task)

/-- `sys_sigaction`. There is no test for `SIGKILL` and `SIGSTOP`. -/
def sysSigaction (signum act oldact : Word) : Task × Word :=
  if nsig ≤ signum.toNat ∨ signum = 0 then (t, einval) else
  match copyToUser t.mem oldact (t.signals.actions signum.toNat).words with
  | none => (t, efault)
  | some mem =>
    let t := { t with mem := mem }
    if act = 0 then (t, 0) else
    match copyFromUser mem act 4 with
    | none => (t, efault)
    | some ws =>
      let actions := update t.signals.actions signum.toNat (Sigaction.ofWords ws)
      ({ t with signals.actions := actions }, 0)

/-- The mask that `sys_sigprocmask` sets. The last line clears the bits 9 and 19, which
are those of signal 10 and of signal 20. -/
def newMask (how : Word) (set blocked : Word) : Option Word :=
  let how := how.setWidth 32
  let mask := if how = 0 then some (blocked ||| set)
    else if how = 1 then some (blocked &&& ~~~set)
    else if how = 2 then some set
    else none
  mask.map fun blocked => blocked &&& ~~~(bit sigkill ||| bit sigstop)

/-- `sys_sigprocmask`. -/
def sysSigprocmask (how set oldset : Word) : Task × Word :=
  match copyToUser t.mem oldset [t.signals.blocked] with
  | none => (t, efault)
  | some mem =>
    let t := { t with mem := mem }
    if set = 0 then (t, 0) else
    match copyFromUser mem set 1 with
    | none => (t, efault)
    | some ws =>
      match newMask how (ws.getD 0 0) t.signals.blocked with
      | none => (t, einval)
      | some blocked => ({ t with signals.blocked := blocked }, 0)

/-! ### Delivery -/

/-- `offsetof(signal_frame_t, trampoline)`. -/
def trampolineOffset : Nat := 144

/-- `sizeof(signal_frame_t)`. -/
def signalFrameSize : Nat := 160

/-- The `signal_frame_t` that is put on the user's stack. -/
def signalFrame (frame : Frame) (signum : Nat) (blocked : Word) : List Word :=
  frame.words ++ [BitVec.ofNat 64 signum, blocked, 0x0000000fc0c74800 ||| (15 <<< 32), 0x050f]

/-- Where it is put. -/
def signalFrameAddr (rsp : Word) : Word :=
  (rsp - 128 - BitVec.ofNat 64 signalFrameSize) &&& ~~~0xF

/-- The test that a signal frame may be at `addr`. -/
def frameOk (addr : Word) : Bool := !(addr.toNat < 0x1000 || userAddrMax ≤ addr.toNat)

/-- What `signal_deliver_pending` does: nothing that concerns the frame, the default action
of a signal, or a call of its handler. -/
inductive Delivery where
  | none
  | default (signum : Nat)
  | handler (signum : Nat)
deriving DecidableEq, Repr

/-- The loop of `signal_deliver_pending` over the signal numbers. -/
def firstSignal (deliverable : Word) : Option Nat :=
  (List.range' 1 (nsig - 1)).find? (sigismember deliverable)

/-- The mask while the handler of `signum` runs. -/
def handlerMask (action : Sigaction) (signum : Nat) (blocked : Word) : Word :=
  if action.noDefer then blocked ||| action.mask else sigaddset (blocked ||| action.mask) signum

/-- The signal frame is written to `addr` and the system call's frame redirected to the
handler. The return address is the trampoline's and overwrites its first word. -/
def enterHandler (signum : Nat) (addr : Word) : Task :=
  let action := t.signals.actions signum
  let top := addr + BitVec.ofNat 64 (signalFrameSize - 16)
  let mem := storeWords t.mem addr.toNat (signalFrame t.regs signum t.signals.blocked)
  let actions := if action.resetHand then
      update t.signals.actions signum { action with handler := sigDfl }
    else t.signals.actions
  { regs := { t.regs with rdi := BitVec.ofNat 64 signum, rcx := action.handler, rsp := top }
    mem := storeWord mem top.toNat (addr + BitVec.ofNat 64 trampolineOffset)
    signals := { t.signals with
      blocked := handlerMask action signum t.signals.blocked
      actions := actions } }

/-- `signal_deliver_pending`. -/
def signalDeliverPending : Task × Delivery :=
  let deliverable := t.signals.pending &&& ~~~t.signals.blocked
  match firstSignal deliverable with
  | none => (t, .none)
  | some signum =>
    let t := { t with signals.pending := sigdelset t.signals.pending signum }
    let handler := (t.signals.actions signum).handler
    if handler = sigIgn then (t, .none)
    else if handler = sigDfl then (t, .default signum)
    else
      let addr := signalFrameAddr t.regs.rsp
      if frameOk addr then (enterHandler t signum addr, .handler signum)
      else (t, .default sigsegv)

/-- `sys_sigreturn_impl`. The signal frame is looked for as far below RSP as the trampoline
is above its start. -/
def sysSigreturn : Task × Word :=
  let addr := t.regs.rsp - BitVec.ofNat 64 trampolineOffset
  if frameOk addr then
    let ws := loadWords t.mem addr.toNat 18
    let frame := Frame.ofWords ws
    ({ t with regs := frame, signals.blocked := ws.getD 17 0 }, frame.rax)
  else (t, efault)

/-! ### A system call -/

/-- The registers that `syscall_entry` does not restore: what the C code leaves in them. -/
structure ArgRegs where
  rdi : Word
  rsi : Word
  rdx : Word
  r10 : Word
  r8 : Word
  r9 : Word
deriving DecidableEq, Repr

/-- A program that `execve` has loaded: where it starts, its stack and its memory. -/
structure Image where
  entry : Word
  sp : Word
  mem : Buffer

/-- What a system call does apart from signals. `mem` and `result` are those of a handler that
is not modelled here, `image` is there if `execve` succeeds. An `execve` that fails may have
stored to the memory of the caller. -/
structure Effect where
  result : Word
  mem : Buffer
  image : Option Image
  args : ArgRegs

/-- `SYS_MAX`. -/
def sysMax : Nat := 256

/-- The end of a successful `sys_execve_impl`. -/
def sysExecve (image : Image) : Task :=
  { t with
    mem := image.mem
    regs :=
      { rcx := image.entry, rsp := image.sp, rax := 0, r11 := 0x202, rdi := 0, rsi := 0
        rdx := 0, r8 := 0, r9 := 0, r10 := 0, rbx := 0, rbp := 0, r12 := 0, r13 := 0, r14 := 0
        r15 := 0 } }

/-- The part of `syscall_dispatch` before the check for signals, for every call but
`sigreturn`. -/
def handleCall (e : Effect) : Task × Word :=
  match t.regs.rax.toNat with
  | 13 => sysSigaction t t.regs.rdi t.regs.rsi t.regs.rdx
  | 14 => sysSigprocmask t t.regs.rdi t.regs.rsi t.regs.rdx
  | 57 => (t, e.result)
  | 59 =>
    match e.image with
    | some image => (sysExecve t image, 0)
    | none => ({ t with mem := e.mem }, e.result)
  | _ => ({ t with mem := e.mem }, e.result)

/-- `syscall_dispatch`. -/
def syscallDispatch (e : Effect) : Task × Word × Delivery :=
  if sysMax ≤ t.regs.rax.toNat then (t, enosys, .none)
  else if t.regs.rax.toNat = 15 then
    let (t, result) := sysSigreturn t
    (t, result, .none)
  else
    let (t, result) := handleCall t e
    let (t, delivery) := signalDeliverPending t
    (t, result, delivery)

/-- The flags that `SYSRET` loads from R11. -/
def sysretFlags (r11 : Word) : Word := (r11 &&& 0x3C7FD7) ||| 2

/-- `syscall_entry` after `syscall_dispatch`: the callee-saved registers, RIP, RFLAGS and RSP are
loaded from the frame, RAX is the result. -/
def sysret (frame : Frame) (result : Word) (args : ArgRegs) : Frame :=
  { frame with
    rax := result
    r11 := sysretFlags frame.r11
    rdi := args.rdi, rsi := args.rsi, rdx := args.rdx, r10 := args.r10, r8 := args.r8
    r9 := args.r9 }

/-- A system call from `SYSCALL` to `SYSRET`. -/
def syscall (e : Effect) : Task × Delivery :=
  let (t, result, delivery) := syscallDispatch t e
  ({ t with regs := sysret t.regs result e.args }, delivery)

/-- What happens to a task: its own code runs, which may leave anything in registers and
memory, a signal is sent to it, or it executes `SYSCALL`. -/
inductive Event where
  | user (regs : Frame) (mem : Buffer)
  | send (signum : Nat)
  | syscall (e : Effect)

def step : Event → Option Task
  | .user regs mem => some { t with regs := regs, mem := mem }
  | .send signum =>
    if 0 < signum ∧ signum < nsig then
      some { t with signals.pending := sigaddset t.signals.pending signum }
    else none
  | .syscall e => some (syscall t e).1

/-! ### What the calls do -/

section Calls

variable (t : Task)

/-- The action that a call of `sys_sigaction` reads and stores. -/
def newAction (signum act oldact : Word) : Option Sigaction :=
  if nsig ≤ signum.toNat ∨ signum = 0 then none else
  (copyToUser t.mem oldact (t.signals.actions signum.toNat).words).bind fun mem =>
  if act = 0 then none else (copyFromUser mem act 4).map Sigaction.ofWords

theorem sysSigaction_regs (signum act oldact : Word) :
    (sysSigaction t signum act oldact).1.regs = t.regs := by
  unfold sysSigaction
  split
  · rfl
  split
  · rfl
  split
  · rfl
  split <;> rfl

theorem sysSigaction_signals (signum act oldact : Word) :
    (sysSigaction t signum act oldact).1.signals =
      match newAction t signum act oldact with
      | none => t.signals
      | some a => { t.signals with actions := update t.signals.actions signum.toNat a } := by
  unfold sysSigaction newAction
  split
  · rfl
  split
  case h_1 hcopy => rw [hcopy]; rfl
  case h_2 mem hcopy =>
  rw [hcopy, bind_some]
  split
  · rfl
  split
  case h_1 hread => rw [hread]; rfl
  case h_2 ws hread => rw [hread]; rfl

/-- The set that a call of `sys_sigprocmask` reads. -/
def requestedSet (set oldset : Word) : Option Word :=
  (copyToUser t.mem oldset [t.signals.blocked]).bind fun mem =>
  if set = 0 then none else (copyFromUser mem set 1).map fun ws => ws.getD 0 0

theorem sysSigprocmask_regs (how set oldset : Word) :
    (sysSigprocmask t how set oldset).1.regs = t.regs := by
  unfold sysSigprocmask
  split
  · rfl
  dsimp only
  split
  · rfl
  split
  · rfl
  · split <;> rfl

theorem sysSigprocmask_signals (how set oldset : Word) :
    (sysSigprocmask t how set oldset).1.signals =
      match (requestedSet t set oldset).bind fun kset => newMask how kset t.signals.blocked with
      | none => t.signals
      | some blocked => { t.signals with blocked := blocked } := by
  unfold sysSigprocmask requestedSet
  split
  case h_1 hcopy => rw [hcopy]; rfl
  case h_2 mem hcopy =>
  rw [hcopy, bind_some]
  dsimp only
  split
  · rfl
  split
  case h_1 hread => rw [hread]; rfl
  case h_2 ws hread =>
  rw [hread, map_some, bind_some]
  split <;> rfl

/-- A signal that is not ignored and has no default action calls its handler, if there is
room on the stack; otherwise only the pending set changes. -/
theorem signalDeliverPending_cases :
    (∃ pending, (signalDeliverPending t).1 = { t with signals.pending := pending } ∧
      ∀ signum, (signalDeliverPending t).2 ≠ .handler signum) ∨
    ∃ signum pending, (t.signals.actions signum).handler ≠ sigDfl ∧
      frameOk (signalFrameAddr t.regs.rsp) = true ∧
      signalDeliverPending t = (enterHandler { t with signals.pending := pending } signum
        (signalFrameAddr t.regs.rsp), .handler signum) := by
  unfold signalDeliverPending
  dsimp only
  split
  · exact .inl ⟨t.signals.pending, rfl, fun _ => Delivery.noConfusion⟩
  case h_2 signum _ =>
  iterate 2
    split
    · exact .inl ⟨_, rfl, fun _ => Delivery.noConfusion⟩
  case isFalse hdfl =>
  split
  case isTrue hok => exact .inr ⟨signum, _, hdfl, hok, rfl⟩
  · exact .inl ⟨_, rfl, fun _ => Delivery.noConfusion⟩

end Calls

end Kurios.Signal
