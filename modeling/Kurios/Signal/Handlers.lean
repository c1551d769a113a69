import Kurios.Base.Loop
import Kurios.Signal.Defs

/-!
How a thread continues after signal handlers.

`signal_deliver_pending` saves the registers and the mask in a signal frame on the user's
stack and `sys_sigreturn_impl` loads them from there. The two do not agree on where the
frame is: the handler starts with RSP at the return address, and `sigreturn` expects that
RSP although `ret` has taken the address from the stack. Everything is then loaded from
one word further up, RIP from the saved RFLAGS (`ret_loses_registers`). Besides, the saved
RAX is the number of the system call and not its result, RDI is not loaded on the way to
the handler, and the return address is stored over the trampoline's code.

`continues_after_handlers` says what remains true: a handler that calls `sigreturn` with RSP as it
was at its start comes back to the interrupted context, at any depth of handlers within
handlers, with the number of the interrupted call in the place of its result; one that
returns never comes back to the interrupted stack pointer. A handler's stack pointer is above
its signal frame, so that the frames have to be kept by a condition (`Undisturbed`): where
a signal may arrive, RSP leaves room for another frame.
-/

namespace Kurios.Signal

open Base Option List BitVec

variable {signum : Nat}

/-! ### Interrupted contexts -/

/-- What the code after a system call can rely on. -/
structure Resume where
  rip : Word
  rsp : Word
  rflags : Word
  rbx : Word
  rbp : Word
  r12 : Word
  r13 : Word
  r14 : Word
  r15 : Word
  rax : Word
  blocked : Word
deriving DecidableEq, Repr

def Task.resume (t : Task) : Resume :=
  { rip := t.regs.rcx, rsp := t.regs.rsp, rflags := t.regs.r11, rbx := t.regs.rbx, rbp := t.regs.rbp
    r12 := t.regs.r12, r13 := t.regs.r13, r14 := t.regs.r14, r15 := t.regs.r15, rax := t.regs.rax
    blocked := t.signals.blocked }

/-- A handler that has not returned: RSP when it was entered, how the system call it was
entered from would have returned without a signal, and RAX of that call's frame. -/
structure Handler where
  entry : Word
  resume : Resume
  number : Word
deriving DecidableEq, Repr

/-- A task and its handlers that have not returned, the innermost first. -/
structure Nested where
  task : Task
  handlers : List Handler

/-- How the system call returns if there is no signal. -/
def undelivered (t : Task) (e : Effect) : Resume :=
  (syscall { t with signals.pending := 0 } e).1.resume

/-- The memory is replaced. -/
def Execs (t : Task) (e : Effect) : Prop := t.regs.rax.toNat = 59 ∧ e.image.isSome = true
deriving Decidable

/-- Where the signal frame of a handler starts. -/
def Handler.frame (h : Handler) : Nat := (h.entry - BitVec.ofNat 64 trampolineOffset).toNat

/-- A signal is pending that may be delivered at the end of the call. -/
def Interruptible (t : Task) : Prop :=
  (t.regs.rax.toNat < sysMax ∧ t.regs.rax.toNat ≠ 15) ∧
    (t.signals.pending &&& ~~~t.signals.blocked ≠ 0 ∨ t.regs.rax.toNat = 14)
deriving Decidable

namespace Nested

/-- A new program has no handlers to return to. -/
def step (n : Nested) : Event → Option Nested
  | .syscall e =>
    let handlers := if Execs n.task e then [] else n.handlers
    match syscall n.task e with
    | (t, .handler _) =>
      let h := ⟨t.regs.rsp, undelivered n.task e, (handleCall n.task e).1.regs.rax⟩
      some { task := t, handlers := h :: handlers }
    | (t, _) =>
      let returns := n.task.regs.rax.toNat = 15
      some { task := t, handlers := if returns then handlers.tail else handlers }
  | .user regs mem => (Signal.step n.task (.user regs mem)).map fun t => { n with task := t }
  | .send signum => (Signal.step n.task (.send signum)).map fun t => { n with task := t }

/-- The signal frame of a handler, as far as it is read. -/
def savedWords (mem : Buffer) (h : Handler) : List Word := loadWords mem h.frame 18

/-- The signal frames of the handlers are as they were. -/
def KeepsFrames (n : Nested) (mem : Buffer) : Prop :=
  ∀ h ∈ n.handlers, savedWords mem h = savedWords n.task.mem h
deriving Decidable

/-- A range is apart from the signal frames. -/
def Clear (n : Nested) (addr size : Nat) : Prop :=
  ∀ h ∈ n.handlers, addr + size ≤ h.frame ∨ h.frame + 8 * 18 ≤ addr
deriving Decidable

/-- The buffers for old values are apart from the signal frames, the other calls do not write to
them, and `sigreturn` is called by a handler with RSP as at its start. -/
def CallKeeps (n : Nested) (e : Effect) : Prop :=
  match n.task.regs.rax.toNat with
  | 13 => n.Clear n.task.regs.rdx.toNat (8 * 4)
  | 14 => n.Clear n.task.regs.rdx.toNat (8 * 1)
  | 15 => n.handlers.head?.map Handler.entry = some n.task.regs.rsp
  | 57 => True
  | number => number < sysMax → n.KeepsFrames e.mem

/-- Nothing writes to the signal frames, and where a signal may be delivered, the place of its
frame is apart from them. -/
def Undisturbed (n : Nested) : Event → Prop
  | .user _ mem => n.KeepsFrames mem
  | .send _ => True
  | .syscall e => Execs n.task e ∨ n.CallKeeps e ∧
      (Interruptible n.task → n.Clear (signalFrameAddr n.task.regs.rsp).toNat signalFrameSize)

instance (n : Nested) (e : Effect) : Decidable (n.CallKeeps e) := by
  unfold CallKeeps
  split <;> infer_instance

instance (n : Nested) (e : Event) : Decidable (n.Undisturbed e) := by
  cases e <;> unfold Undisturbed <;> infer_instance

end Nested

/-! ### The round trip through the stack -/

section RoundTrip

variable (t : Task) (e : Effect)

theorem sysSigaction_withPending (pending signum act oldact : Word) :
    sysSigaction { t with signals.pending := pending } signum act oldact =
      ({ (sysSigaction t signum act oldact).1 with signals.pending := pending },
        (sysSigaction t signum act oldact).2) := by
  unfold sysSigaction
  split
  · rfl
  cases copyToUser t.mem oldact (t.signals.actions signum.toNat).words with
  | none => rfl
  | some mem =>
    dsimp only
    split
    · rfl
    · cases copyFromUser mem act 4 <;> rfl

theorem sysSigprocmask_withPending (pending how set oldset : Word) :
    sysSigprocmask { t with signals.pending := pending } how set oldset =
      ({ (sysSigprocmask t how set oldset).1 with signals.pending := pending },
        (sysSigprocmask t how set oldset).2) := by
  unfold sysSigprocmask
  cases copyToUser t.mem oldset [t.signals.blocked] with
  | none => rfl
  | some mem =>
    dsimp only
    split
    · rfl
    cases copyFromUser mem set 1 with
    | none => rfl
    | some ws =>
      dsimp only
      cases newMask how (ws.getD 0 0) t.signals.blocked <;> rfl

/-- What a call leaves of the signals and of the stack pointer. -/
theorem handleCall_same : (handleCall t e).1.signals.pending = t.signals.pending ∧
    (t.regs.rax.toNat ≠ 14 → (handleCall t e).1.signals.blocked = t.signals.blocked) ∧
    (¬ Execs t e → (handleCall t e).1.regs.rsp = t.regs.rsp) := by
  unfold handleCall
  split
  · rw [sysSigaction_signals, sysSigaction_regs]
    refine ⟨?_, fun _ => ?_, fun _ => rfl⟩ <;> split <;> rfl
  case h_2 hnum =>
    rw [sysSigprocmask_signals, sysSigprocmask_regs]
    refine ⟨?_, fun hne => absurd hnum hne, fun _ => rfl⟩
    split <;> rfl
  · exact ⟨rfl, fun _ => rfl, fun _ => rfl⟩
  case h_4 hnum =>
    split
    case h_1 image himage =>
      exact ⟨rfl, fun _ => rfl, fun hnot => absurd ⟨hnum, himage ▸ isSome_some⟩ hnot⟩
    · exact ⟨rfl, fun _ => rfl, fun _ => rfl⟩
  · exact ⟨rfl, fun _ => rfl, fun _ => rfl⟩

theorem handleCall_withPending (pending : Word) :
    handleCall { t with signals.pending := pending } e =
      ({ (handleCall t e).1 with signals.pending := pending }, (handleCall t e).2) := by
  unfold handleCall
  dsimp only
  split
  · exact sysSigaction_withPending t pending _ _ _
  · exact sysSigprocmask_withPending t pending _ _ _
  · rfl
  · split <;> rfl
  · rfl

theorem firstSignal_zero : firstSignal 0 = none := by decide

/-- A call that is not `sigreturn`, and then a signal. -/
theorem syscall_call (hmax : ¬ sysMax ≤ t.regs.rax.toNat) (hnum : t.regs.rax.toNat ≠ 15) :
    syscall t e = let r := signalDeliverPending (handleCall t e).1
      ({ r.1 with regs := sysret r.1.regs (handleCall t e).2 e.args }, r.2) := by
  unfold syscall syscallDispatch
  rw [if_neg hmax, if_neg hnum]

theorem syscall_sigreturn (hnum : t.regs.rax.toNat = 15) :
    syscall t e = let r := sysSigreturn t
      ({ r.1 with regs := sysret r.1.regs r.2 e.args }, .none) := by
  have hmax : ¬ sysMax ≤ t.regs.rax.toNat := by rw [hnum]; decide
  unfold syscall syscallDispatch
  rw [if_neg hmax, if_pos hnum]

/-- A call that is not `sigreturn`, without a signal. -/
theorem undelivered_eq (hmax : ¬ sysMax ≤ t.regs.rax.toNat) (hnum : t.regs.rax.toNat ≠ 15) :
    undelivered t e =
      { (handleCall t e).1 with
        regs := sysret (handleCall t e).1.regs (handleCall t e).2 e.args : Task }.resume := by
  have hnone : ∀ x : Word, firstSignal (0 &&& x) = none := by
    intro x
    have hzero : (0 : Word) &&& x = 0 := zero_and
    rw [hzero]
    exact firstSignal_zero
  rw [undelivered, syscall_call { t with signals.pending := 0 } e hmax hnum, handleCall_withPending]
  unfold signalDeliverPending
  dsimp only
  rw [hnone]
  rfl

theorem frameOk_lt {addr} (hok : frameOk addr = true) :
    0x1000 ≤ addr.toNat ∧ addr.toNat < userAddrMax := by
  unfold frameOk at hok
  simp only [Bool.not_eq_true', Bool.or_eq_false_iff, decide_eq_false_iff_not] at hok
  omega

theorem and_not_add_and (x m : Word) : (x &&& ~~~m) + (x &&& m) = x := by
  have hand : (x &&& ~~~m) &&& (x &&& m) = 0 := by
    ext i
    simp
    grind
  rw [add_eq_or_of_and_eq_zero _ _ hand, ← and_or_distrib_left, not_or_self, and_allOnes]

/-- The frame is below RSP, which does not wrap around. -/
theorem signalFrameAddr_le {rsp} (hok : frameOk (signalFrameAddr rsp) = true) :
    (signalFrameAddr rsp).toNat + 288 ≤ rsp.toNat := by
  have hsplit := congrArg BitVec.toNat
    (and_not_add_and (rsp - 128 - BitVec.ofNat 64 signalFrameSize) 0xF)
  have hlow : ((rsp - 128 - BitVec.ofNat 64 signalFrameSize) &&& 0xF).toNat ≤ 15 := by
    rw [toNat_and]
    exact Nat.and_le_right
  have hlt := frameOk_lt hok
  unfold signalFrameAddr signalFrameSize userAddrMax at *
  bv_omega

theorem toNat_trampoline {addr} (hok : frameOk addr = true) :
    (addr + BitVec.ofNat 64 (signalFrameSize - 16)).toNat = addr.toNat + 144 := by
  have hlt := (frameOk_lt hok).2
  unfold userAddrMax at hlt
  unfold signalFrameSize
  rw [toNat_add, toNat_ofNat]
  omega

/-- The words of a frame and the mask are read back from the signal frame. -/
theorem savedWords_enterHandler (signum : Nat) {addr} (hok : frameOk addr = true) :
    loadWords (enterHandler t signum addr).mem addr.toNat 18 =
      t.regs.words ++ [BitVec.ofNat 64 signum, t.signals.blocked] := by
  have htop := toNat_trampoline hok
  have hkept : loadWords (enterHandler t signum addr).mem addr.toNat 18 =
      loadWords (storeWords t.mem addr.toNat (signalFrame t.regs signum t.signals.blocked))
        addr.toNat 18 := by
    apply loadWords_congr
    intro i _ hhi
    apply storeWord_of_outside
    omega
  rw [hkept, loadWords_storeWords _ _ _ (Nat.le_of_ble_eq_true rfl)]
  rfl

/-- The signal whose handler is called was pending and not blocked. -/
theorem signalDeliverPending_handler (h : (signalDeliverPending t).2 = .handler signum) :
    signum < nsig ∧ t.signals.pending &&& ~~~t.signals.blocked ≠ 0 := by
  unfold signalDeliverPending at h
  dsimp only at h
  split at h
  · cases h
  case h_2 signum' hfirst =>
  have hrange := List.mem_range'_1.mp (List.mem_of_find?_eq_some hfirst)
  have hne : t.signals.pending &&& ~~~t.signals.blocked ≠ 0 := by
    intro hzero
    rw [hzero, firstSignal_zero] at hfirst
    cases hfirst
  split at h
  · cases h
  split at h
  · cases h
  split at h
  · cases h
    exact ⟨by unfold nsig at *; omega, hne⟩
  · cases h

/-- A system call at whose end a handler is called. -/
theorem syscall_handler (h : (syscall t e).2 = .handler signum) :
    (signum < nsig ∧ Interruptible t) ∧
    ∃ pending, let t1 : Task := { (handleCall t e).1 with signals.pending := pending }
      let t2 := enterHandler t1 signum (signalFrameAddr t1.regs.rsp)
      frameOk (signalFrameAddr t1.regs.rsp) = true ∧
        (syscall t e).1 = { t2 with regs := sysret t2.regs (handleCall t e).2 e.args } := by
  by_cases hmax : sysMax ≤ t.regs.rax.toNat
  case pos =>
    unfold syscall syscallDispatch at h
    rw [if_pos hmax] at h
    cases h
  case neg =>
  by_cases hnum : t.regs.rax.toNat = 15
  case pos =>
    rw [syscall_sigreturn t e hnum] at h
    cases h
  case neg =>
  rw [syscall_call t e hmax hnum] at h ⊢
  dsimp only at h ⊢
  have hinterrupt : signum < nsig ∧ Interruptible t := by
    obtain ⟨hlt, hne⟩ := signalDeliverPending_handler _ h
    obtain ⟨hpending, hblocked, -⟩ := handleCall_same t e
    refine ⟨hlt, ⟨not_le.mp hmax, hnum⟩, ?_⟩
    by_cases hmask : t.regs.rax.toNat = 14
    case pos => exact .inr hmask
    case neg => exact .inl (by rwa [hpending, hblocked hmask] at hne)
  refine ⟨hinterrupt, ?_⟩
  rcases signalDeliverPending_cases (handleCall t e).1 with ⟨-, -, hno⟩ |
    ⟨signum', pending, -, hok, heq⟩
  · exact absurd h (hno signum)
  · rw [heq] at h ⊢
    obtain rfl := Delivery.handler.inj h
    exact ⟨pending, hok, rfl⟩

end RoundTrip

/-! ### Handlers within handlers -/

/-- What `sigreturn` continues with. -/
def restored (ws : List Word) : Resume :=
  let frame := Frame.ofWords ws
  { rip := frame.rcx, rsp := frame.rsp, rflags := sysretFlags frame.r11, rbx := frame.rbx
    rbp := frame.rbp, r12 := frame.r12, r13 := frame.r13, r14 := frame.r14, r15 := frame.r15
    rax := frame.rax, blocked := ws.getD 17 0 }

/-- The interrupted context is in the signal frame of the handler, which is below the interrupted
stack, and the number of the signal is behind the registers. -/
structure Saved (mem : Buffer) (h : Handler) : Prop where
  ok : frameOk (h.entry - BitVec.ofNat 64 trampolineOffset) = true
  words : restored (Nested.savedWords mem h) = { h.resume with rax := h.number }
  signum : ((Nested.savedWords mem h).getD 16 0).toNat < nsig
  below : h.frame + 288 ≤ h.resume.rsp.toNat

section Handlers

variable {t : Task} {e : Effect} {n n' : Nested} {h : Handler}

theorem Saved.congr {mem mem'} (hs : Saved mem h)
    (hkept : Nested.savedWords mem' h = Nested.savedWords mem h) : Saved mem' h where
  __ := hs
  words := by
    rw [hkept]
    exact hs.words
  signum := by
    rw [hkept]
    exact hs.signum

/-- `sigreturn` of a handler whose stack pointer is as at its start. -/
theorem Saved.sigreturn (hs : Saved t.mem h) (hnum : t.regs.rax.toNat = 15)
    (hrsp : t.regs.rsp = h.entry) (e : Effect) :
    (syscall t e).1.resume = { h.resume with rax := h.number } := by
  rw [← hs.words, syscall_sigreturn t e hnum, sysSigreturn, hrsp, if_pos hs.ok]
  rfl

/-- `sigreturn` of a handler that has returned: RSP is loaded from the number of the signal. -/
theorem Saved.returned (hs : Saved t.mem h) (hnum : t.regs.rax.toNat = 15)
    (hrsp : t.regs.rsp = h.entry + 8) (e : Effect) : (syscall t e).1.regs.rsp ≠ h.resume.rsp := by
  have hlt := frameOk_lt hs.ok
  have hbelow := hs.below
  have hsignum := hs.signum
  have hframe : (h.entry + 8 - BitVec.ofNat 64 trampolineOffset).toNat = h.frame + 8 := by
    unfold Handler.frame userAddrMax trampolineOffset at *
    bv_omega
  rw [syscall_sigreturn t e hnum, sysSigreturn, hrsp]
  by_cases hok : frameOk (h.entry + 8 - BitVec.ofNat 64 trampolineOffset) = true
  · rw [if_pos hok]
    intro heq
    dsimp only [sysret, Frame.ofWords] at heq
    rw [hframe, loadWords_getD _ _ (by decide)] at heq
    unfold Nested.savedWords at hsignum
    rw [loadWords_getD _ _ (by decide)] at hsignum
    rw [← heq] at hbelow
    unfold nsig at hsignum
    have haddr : h.frame + 8 + 8 * 15 = h.frame + 8 * 16 := by omega
    rw [haddr] at hbelow
    omega
  · rw [if_neg hok]
    intro heq
    dsimp only [sysret] at heq
    rw [hrsp] at heq
    rw [← heq] at hbelow
    unfold Handler.frame userAddrMax trampolineOffset at *
    bv_omega

/-- A handler that is called finds the interrupted context in its signal frame. -/
theorem saved_of_delivery (hdel : (syscall t e).2 = .handler signum) :
    Saved (syscall t e).1.mem
      ⟨(syscall t e).1.regs.rsp, undelivered t e, (handleCall t e).1.regs.rax⟩ := by
  obtain ⟨⟨hlt, ⟨hmax, hnum⟩, -⟩, pending, hok, heq⟩ := syscall_handler t e hdel
  -- RSP is the offset of the trampoline above the frame.
  have haddr : (syscall t e).1.regs.rsp - BitVec.ofNat 64 trampolineOffset =
      signalFrameAddr (handleCall t e).1.regs.rsp := by
    rw [heq]
    exact BitVec.add_sub_cancel _ _
  have hwords : Nested.savedWords (syscall t e).1.mem ⟨(syscall t e).1.regs.rsp, undelivered t e,
      (handleCall t e).1.regs.rax⟩ =
        (handleCall t e).1.regs.words ++
          [BitVec.ofNat 64 signum, (handleCall t e).1.signals.blocked] := by
    unfold Nested.savedWords Handler.frame
    rw [haddr, heq]
    exact savedWords_enterHandler { (handleCall t e).1 with signals.pending := pending } signum hok
  have hundelivered := undelivered_eq t e (not_le.mpr hmax) hnum
  constructor
  · rw [haddr]
    exact hok
  · rw [hwords, hundelivered]
    rfl
  · rw [hwords]
    show (BitVec.ofNat 64 signum).toNat < nsig
    unfold nsig at *
    rw [toNat_ofNat]
    omega
  · rw [hundelivered]
    unfold Handler.frame
    rw [haddr]
    exact signalFrameAddr_le hok

/-! ### What is written outside the signal frames -/

theorem savedWords_storeWords {mem} {addr} {ws}
    (hclear : addr + 8 * ws.length ≤ h.frame ∨ h.frame + 8 * 18 ≤ addr) :
    Nested.savedWords (storeWords mem addr ws) h = Nested.savedWords mem h :=
  loadWords_congr fun _ hlo hhi => storeWords_of_outside (by omega)

theorem copyToUser_keeps {mem mem'} {dst} {ws} (hcopy : copyToUser mem dst ws = some mem')
    (hclear : dst.toNat + 8 * ws.length ≤ h.frame ∨ h.frame + 8 * 18 ≤ dst.toNat) :
    Nested.savedWords mem' h = Nested.savedWords mem h := by
  unfold copyToUser at hcopy
  split at hcopy
  · exact some.inj hcopy ▸ rfl
  obtain ⟨-, rfl⟩ := ite_eq_some hcopy
  exact savedWords_storeWords hclear

/-- A call that keeps to the condition leaves the signal frames. -/
theorem Nested.CallKeeps.handleCall (hcall : n.CallKeeps e) (hmax : n.task.regs.rax.toNat < sysMax)
    (hnum : n.task.regs.rax.toNat ≠ 15) (hexecs : ¬ Execs n.task e) :
    n.KeepsFrames (handleCall n.task e).1.mem := by
  intro h hmem
  unfold Signal.handleCall
  unfold Nested.CallKeeps at hcall
  split
  case h_1 heq =>
    rw [heq] at hcall
    unfold sysSigaction
    split
    · rfl
    split
    · rfl
    case h_2 mem hcopy =>
    have hkept := copyToUser_keeps hcopy (hcall h hmem)
    split
    · exact hkept
    split <;> exact hkept
  case h_2 heq =>
    rw [heq] at hcall
    unfold sysSigprocmask
    split
    · rfl
    case h_2 mem hcopy =>
    have hkept := copyToUser_keeps hcopy (hcall h hmem)
    dsimp only
    split
    · exact hkept
    split
    · exact hkept
    split <;> exact hkept
  · rfl
  case h_4 heq =>
    rw [heq] at hcall
    split
    case h_1 image himage => exact absurd ⟨heq, himage ▸ isSome_some⟩ hexecs
    · exact hcall (by decide) h hmem
  case h_5 h13 h14 h57 h59 =>
    split at hcall
    · exact absurd ‹_› h13
    · exact absurd ‹_› h14
    · exact absurd ‹_› hnum
    · exact absurd ‹_› h57
    · exact hcall hmax h hmem

/-- The new signal frame leaves those that are apart from it. -/
theorem savedWords_enterHandler_of_clear {addr} (hok : frameOk addr = true)
    (hclear : addr.toNat + signalFrameSize ≤ h.frame ∨ h.frame + 8 * 18 ≤ addr.toNat) :
    Nested.savedWords (enterHandler t signum addr).mem h = Nested.savedWords t.mem h := by
  refine Eq.trans (loadWords_congr fun i hlo hhi => storeWord_of_outside ?_)
    (savedWords_storeWords hclear)
  rw [toNat_trampoline hok]
  unfold signalFrameSize at hclear
  omega

/-- A system call leaves the signal frames of the handlers that have not returned. -/
theorem Nested.keepsFrames_syscall (hcall : n.CallKeeps e) (hexecs : ¬ Execs n.task e)
    (hclear : Interruptible n.task →
      n.Clear (signalFrameAddr n.task.regs.rsp).toNat signalFrameSize) :
    n.KeepsFrames (syscall n.task e).1.mem := by
  intro h hmem
  by_cases hmax : sysMax ≤ n.task.regs.rax.toNat
  case pos =>
    unfold syscall syscallDispatch
    rw [if_pos hmax]
  case neg =>
  by_cases hnum : n.task.regs.rax.toNat = 15
  case pos =>
    rw [syscall_sigreturn _ _ hnum, sysSigreturn]
    dsimp only
    split <;> rfl
  case neg =>
  have hkept := hcall.handleCall (not_le.mp hmax) hnum hexecs h hmem
  have hcalled := syscall_call n.task e hmax hnum
  dsimp only at hcalled
  rcases signalDeliverPending_cases (handleCall n.task e).1 with ⟨pending, heq, -⟩ |
    ⟨signum, pending, -, hok, heq⟩
  · rw [hcalled, heq]
    exact hkept
  have hdel : (syscall n.task e).2 = .handler signum := by rw [hcalled, heq]
  have hapart := hclear (syscall_handler _ _ hdel).1.2 h hmem
  rw [hcalled, heq, ← hkept]
  rw [(handleCall_same n.task e).2.2 hexecs] at hok ⊢
  exact savedWords_enterHandler_of_clear hok hapart

theorem step_saved (hsaved : ∀ h ∈ n.handlers, Saved n.task.mem h) {ev}
    (hund : n.Undisturbed ev) (hstep : n.step ev = some n') :
    ∀ h ∈ n'.handlers, Saved n'.task.mem h := by
  cases ev with
  | user regs mem =>
    cases hstep
    exact fun h hmem => (hsaved h hmem).congr (hund h hmem)
  | send signum =>
    obtain ⟨t, hsend, rfl⟩ := map_eq_some_iff.mp hstep
    obtain ⟨-, rfl⟩ := ite_eq_some hsend
    exact hsaved
  | syscall e =>
    have hold : ∀ h ∈ (if Execs n.task e then [] else n.handlers),
        Saved (syscall n.task e).1.mem h := by
      intro h hmem
      split at hmem
      · exact absurd hmem not_mem_nil
      case isFalse hexecs =>
      obtain ⟨hcall, hclear⟩ := hund.resolve_left hexecs
      exact (hsaved h hmem).congr (Nested.keepsFrames_syscall hcall hexecs hclear h hmem)
    unfold Nested.step at hstep
    dsimp only at hstep
    split at hstep
    case h_1 t signum hcall =>
      cases hstep
      have hnew := saved_of_delivery (congrArg Prod.snd hcall)
      rw [hcall] at hold hnew
      intro h hmem
      rcases mem_cons.mp hmem with rfl | hmem
      · exact hnew
      · exact hold h hmem
    case h_2 t delivery _ hcall =>
    cases hstep
    rw [hcall] at hold
    intro h hmem
    apply hold
    dsimp only at hmem
    split at hmem
    · exact mem_of_mem_tail hmem
    · exact hmem

/-- In every run in which nothing is written to the signal frames of handlers that have not
returned: a handler is called at its address, with what the C code leaves in RDI. When it calls
`sigreturn` with RSP as at its start, the thread continues as without the signal, but with the
number of the interrupted call in RAX, at any depth of handlers within handlers. When it returns,
the thread does not get its stack pointer back. -/
theorem continues_after_handlers {es : List Event} (hstart : n.handlers = [])
    (hrun : GuardedRun Nested.step Nested.Undisturbed n es n') :
    (∀ e signum, (syscall n'.task e).2 = .handler signum →
      (syscall n'.task e).1.regs.rdi = e.args.rdi ∧ (syscall n'.task e).1.regs.rcx =
        ((handleCall n'.task e).1.signals.actions signum).handler) ∧
    ∀ h ∈ n'.handlers.head?, ∀ e, n'.task.regs.rax.toNat = 15 →
      (n'.task.regs.rsp = h.entry →
        (n'.step (.syscall e)).map Nested.handlers = some n'.handlers.tail ∧
        (syscall n'.task e).1.resume = { h.resume with rax := h.number }) ∧
      (n'.task.regs.rsp = h.entry + 8 → (syscall n'.task e).1.resume.rsp ≠ h.resume.rsp) := by
  have hsaved := hrun.inv (fun n => ∀ h ∈ n.handlers, Saved n.task.mem h)
    (fun _ _ _ hsaved hundisturbed hstep => step_saved hsaved hundisturbed hstep)
    (by rw [hstart]; exact fun h hmem => absurd hmem not_mem_nil)
  constructor
  · intro e signum hdelivery
    obtain ⟨-, pending, -, heq⟩ := syscall_handler n'.task e hdelivery
    rw [heq]
    exact ⟨rfl, rfl⟩
  intro h hhead e hnum
  have hs := hsaved h (mem_of_mem_head? hhead)
  refine ⟨fun hentry => ⟨?_, hs.sigreturn hnum hentry e⟩, fun hret => hs.returned hnum hret e⟩
  -- No handler is called at the end of `sigreturn`.
  have hnone : (syscall n'.task e).2 = .none := by rw [syscall_sigreturn _ _ hnum]
  have hexecs : ¬ Execs n'.task e := fun hexecs => by
    have hexecve := hexecs.1
    omega
  unfold Nested.step
  dsimp only
  split
  case h_1 hcall => cases hnone.symm.trans (congrArg Prod.snd hcall)
  rw [map_some, if_pos hnum, if_neg hexecs]

end Handlers

/-! ### One signal, and one within its handler -/

/-- A thread that has executed `getpid` and has handlers for the signals 12 and 13, of which 12
is pending. -/
def beforeSignal : Nested where
  task :=
    { regs := { r15 := 0xF, r14 := 0xE, r13 := 0xD, r12 := 0xC, rbp := 0x7F00F0, rbx := 0xB, r9 := 0
                r8 := 0, r10 := 0, rdx := 0, rsi := 0, rdi := 0, rax := 39, rcx := 0x400100
                r11 := 0x246, rsp := 0x700000 }
      mem := fun _ => 0
      signals := { pending := bit 11, blocked := 0
                   actions := fun n => ⟨0x401000 + BitVec.ofNat 64 n, 0, 0, 0⟩ } }
  handlers := []

/-- `getpid` of a process with this PID. The C code leaves `rdi` in RDI. -/
def getpid (pid : Word) (mem : Buffer) (rdi : Word) : Effect :=
  ⟨pid, mem, none, ⟨rdi, 0, 0, 0, 0, 0⟩⟩

/-- The handler of signal 12 has been called. -/
def inHandler (pid : Word) : Nested :=
  (beforeSignal.step (.syscall (getpid pid (fun _ => 0) 12))).getD beforeSignal

/-- The handler moves its stack pointer and calls `getpid` when signal 13 is pending. -/
def inBoth : Nested :=
  let n := inHandler 39
  (run Nested.step n [.send 13,
    .user { n.task.regs with rax := 39, rsp := n.task.regs.rsp - 512 } n.task.mem,
    .syscall (getpid 39 n.task.mem 13)]).getD n

/-- In the process with PID 39 both handlers run, the second one returns, and the first one is
about to. -/
def bothHandlers : List Event :=
  let n := inHandler 39
  let n' := inBoth
  [.syscall (getpid 39 (fun _ => 0) 12), .send 13,
    .user { n.task.regs with rax := 39, rsp := n.task.regs.rsp - 512 } n.task.mem,
    .syscall (getpid 39 n.task.mem 13),
    .user { n'.task.regs with rax := 15 } n'.task.mem, .syscall (getpid 0 (fun _ => 0) 0),
    .user { n.task.regs with rax := 15 } n'.task.mem]

theorem continues_after_bothHandlers :
    ∃ n, GuardedRun Nested.step Nested.Undisturbed beforeSignal bothHandlers n ∧
      ∃ h ∈ n.handlers.head?, (syscall n.task (getpid 0 (fun _ => 0) 0)).1.resume = h.resume := by
  obtain ⟨n, hrun, hnum, h, hhead, hentry, hresult⟩ : ∃ n, GuardedRun Nested.step Nested.Undisturbed
      beforeSignal bothHandlers n ∧ n.task.regs.rax.toNat = 15 ∧
        ∃ h ∈ n.handlers.head?, n.task.regs.rsp = h.entry ∧
          { h.resume with rax := h.number } = h.resume := by
    decide +kernel
  obtain ⟨-, hreturns⟩ := continues_after_handlers rfl hrun
  exact ⟨n, hrun, h, hhead, (((hreturns h hhead _ hnum).1 hentry).2).trans hresult⟩

/-- In the process with PID 7, the handler has executed `ret` and the trampoline is about to call
`sigreturn`. -/
def afterRet : Task :=
  let t := (inHandler 7).task
  { t with regs := { t.regs with
      rcx := loadWord t.mem t.regs.rsp.toNat, rsp := t.regs.rsp + 8, rax := 15 } }

/-- `getpid` should return 7 to 0x400100. After the handler, RIP is what RFLAGS was and RAX what RIP
was. The handler returns to a trampoline that consists of its own address. -/
theorem ret_loses_registers :
    ((inHandler 7).handlers.map fun h => (h.resume.rip, h.resume.rax)) = [(0x400100, 7)] ∧
      (syscall afterRet (getpid 0 (fun _ => 0) 0)).1.resume.rip = 0x246 ∧
      (syscall afterRet (getpid 0 (fun _ => 0) 0)).1.resume.rax = 0x400100 ∧
      loadWord afterRet.mem afterRet.regs.rcx.toNat = afterRet.regs.rcx := by
  decide +kernel

end Kurios.Signal
