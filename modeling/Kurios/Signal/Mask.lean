import Kurios.Base.Loop
import Kurios.Signal.Defs

/-!
Which signals a process can block.

`SIGKILL` and `SIGSTOP` cannot be blocked or caught, by the rules of POSIX. Of the four
places that write the mask or an action, only `sys_sigprocmask` has a test for it, and
that one clears the wrong two bits: a request to block every signal blocks `SIGKILL` and
leaves signal 10 deliverable (`sigprocmask_blocks_kill`). `sigkill_after_run` says that the rule
holds for programs that keep to it by themselves, in the sets and actions they pass
(`Careful`), and which requests of `sigprocmask` have their effect.
-/

namespace Kurios.Signal

open Base Function Option BitVec

variable {blocked how a mask : Word} {signum : Nat}

/-! ### Members of a set -/

section Members

variable (a b : Word) (n m : Nat)

theorem sigismember_eq : sigismember a n = a.getLsbD (n - 1) := by
  have hbit : bit (n - 1) = twoPow 64 (n - 1) := (twoPow_eq 64 _).symm
  unfold sigismember
  rw [hbit, and_twoPow]
  cases hmem : a.getLsbD (n - 1) with
  | false => simp
  | true =>
    have hlt := lt_of_getLsbD hmem
    have hne : twoPow 64 (n - 1) ≠ 0 := by
      intro hzero
      have hset := congrArg (fun x : Word => x.getLsbD (n - 1)) hzero
      simp [hlt] at hset
    simpa using hne

theorem sigismember_or : sigismember (a ||| b) n = (sigismember a n || sigismember b n) := by
  simp [sigismember_eq]

theorem sigismember_diff : sigismember (a &&& ~~~b) n = (sigismember a n && !sigismember b n) := by
  simp only [sigismember_eq, getLsbD_and, getLsbD_not]
  cases hmem : a.getLsbD (n - 1) with
  | false => rfl
  | true => simp [lt_of_getLsbD hmem]

theorem sigismember_bit : sigismember (bit m) n = decide (n - 1 = m ∧ m < 64) := by
  have hbit : bit m = twoPow 64 m := (twoPow_eq 64 m).symm
  rw [sigismember_eq, hbit, getLsbD_twoPow]
  grind

theorem sigismember_sigaddset (h : n - 1 ≠ m - 1) :
    sigismember (sigaddset a m) n = sigismember a n := by
  unfold sigaddset
  rw [sigismember_or, sigismember_bit, decide_eq_false fun heq => h heq.1, Bool.or_false]

end Members

/-! ### What no call checks -/

/-- The set names neither `SIGKILL` nor `SIGSTOP`. -/
def Blockable (set : Word) : Prop :=
  sigismember set sigkill = false ∧ sigismember set sigstop = false
deriving Decidable

/-- Neither of the two can be blocked, now or by a handler, and both have their default
action. -/
structure Uncatchable (s : SignalState) : Prop where
  blocked : Blockable s.blocked
  masks : ∀ n, Blockable (s.actions n).mask
  kill : (s.actions sigkill).handler = sigDfl
  stop : (s.actions sigstop).handler = sigDfl

/-- An action that POSIX allows for `signum`. -/
def AllowedAction (signum : Word) (a : Sigaction) : Prop :=
  Blockable a.mask ∧ (signum.toNat = sigkill ∨ signum.toNat = sigstop → a.handler = sigDfl)
deriving Decidable

/-- The mask that `sys_sigreturn_impl` finds in the signal frame. -/
def savedMask (t : Task) : Word :=
  (loadWords t.mem (t.regs.rsp - BitVec.ofNat 64 trampolineOffset).toNat 18).getD 17 0

/-- `SIGKILL` and `SIGSTOP` get no handler and are in no mask of a handler, they are in no set
that `sigprocmask` blocks, and not in the mask of a signal frame that is accepted. -/
abbrev CarefulCall (t : Task) : Prop :=
  (t.regs.rax.toNat = 13 →
    (newAction t t.regs.rdi t.regs.rsi t.regs.rdx).all (AllowedAction t.regs.rdi ·) = true) ∧
  (t.regs.rax.toNat = 14 → t.regs.rdi.setWidth 32 = 0 ∨ t.regs.rdi.setWidth 32 = 2 →
    (requestedSet t t.regs.rsi t.regs.rdx).all (Blockable ·) = true) ∧
  (t.regs.rax.toNat = 15 → frameOk (t.regs.rsp - BitVec.ofNat 64 trampolineOffset) = true →
    Blockable (savedMask t))

def Careful (t : Task) : Event → Prop
  | .syscall _ => CarefulCall t
  | .user .. => True
  | .send _ => True

instance (t : Task) (e : Event) : Decidable (Careful t e) := by
  induction e using Event.casesOn <;> unfold Careful <;> infer_instance

/-! ### One step -/

section Steps

variable {t t' : Task} {s : SignalState} {set : Word}

theorem Blockable.or {b} (ha : Blockable a) (hb : Blockable b) : Blockable (a ||| b) := by
  constructor
  · rw [sigismember_or, ha.1, hb.1]; rfl
  · rw [sigismember_or, ha.2, hb.2]; rfl

theorem Blockable.diff (ha : Blockable a) (b : Word) : Blockable (a &&& ~~~b) := by
  constructor
  · rw [sigismember_diff, ha.1]; rfl
  · rw [sigismember_diff, ha.2]; rfl

theorem Blockable.add (ha : Blockable a) (hkill : signum ≠ sigkill) (hstop : signum ≠ sigstop) :
    Blockable (sigaddset a signum) := by
  unfold sigkill at hkill
  unfold sigstop at hstop
  constructor
  · rw [sigismember_sigaddset _ _ _ (by unfold sigkill; omega)]
    exact ha.1
  · rw [sigismember_sigaddset _ _ _ (by unfold sigstop; omega)]
    exact ha.2

theorem Uncatchable.init : Uncatchable signalStateInit where
  blocked := by decide
  masks _ := show Blockable 0 by decide
  kill := rfl
  stop := rfl

theorem Uncatchable.sigaction (h : Uncatchable t.signals) {signum act oldact}
    (hallow : (newAction t signum act oldact).all (AllowedAction signum ·) = true) :
    Uncatchable (sysSigaction t signum act oldact).1.signals := by
  rw [sysSigaction_signals]
  split
  · exact h
  case h_2 a hnew =>
  rw [hnew] at hallow
  obtain ⟨hmask, hhandler⟩ := of_decide_eq_true hallow
  constructor
  case blocked => exact h.blocked
  case masks =>
    intro n
    show Blockable (update t.signals.actions signum.toNat a n).mask
    by_cases hn : n = signum.toNat
    · rw [hn, update_self]
      exact hmask
    · rw [update_of_ne hn]
      exact h.masks n
  case kill =>
    show (update t.signals.actions signum.toNat a sigkill).handler = sigDfl
    by_cases hn : sigkill = signum.toNat
    · rw [hn, update_self]
      exact hhandler (.inl hn.symm)
    · rw [update_of_ne hn]
      exact h.kill
  case stop =>
  show (update t.signals.actions signum.toNat a sigstop).handler = sigDfl
  by_cases hn : sigstop = signum.toNat
  · rw [hn, update_self]
    exact hhandler (.inr hn.symm)
  · rw [update_of_ne hn]
    exact h.stop

theorem Blockable.of_newMask (hblk : Blockable blocked)
    (hset : how.setWidth 32 = 0 ∨ how.setWidth 32 = 2 → Blockable set)
    (h : newMask how set blocked = some mask) : Blockable mask := by
  obtain ⟨mask', hmask, rfl⟩ := map_eq_some_iff.mp h
  apply Blockable.diff
  split at hmask
  case isTrue hhow =>
    cases hmask
    exact hblk.or (hset (.inl hhow))
  split at hmask
  · cases hmask
    exact hblk.diff set
  split at hmask
  case isTrue hhow =>
    cases hmask
    exact hset (.inr hhow)
  · cases hmask

theorem Uncatchable.withBlocked (h : Uncatchable s) (hblk : Blockable blocked) :
    Uncatchable { s with blocked := blocked } :=
  ⟨hblk, h.masks, h.kill, h.stop⟩

theorem Uncatchable.withPending (h : Uncatchable s) (pending : Word) :
    Uncatchable { s with pending := pending } :=
  ⟨h.blocked, h.masks, h.kill, h.stop⟩

section

variable (h : Uncatchable t.signals)
include h

theorem Uncatchable.sigprocmask {set oldset}
    (hset : how.setWidth 32 = 0 ∨ how.setWidth 32 = 2 →
      (requestedSet t set oldset).all (Blockable ·) = true) :
    Uncatchable (sysSigprocmask t how set oldset).1.signals := by
  rw [sysSigprocmask_signals]
  split
  · exact h
  case h_2 mask hmask =>
  obtain ⟨kset, hread, hmask⟩ := bind_eq_some_iff.mp hmask
  rw [hread] at hset
  exact h.withBlocked (h.blocked.of_newMask (fun hhow => of_decide_eq_true (hset hhow)) hmask)

/-- The signal whose handler is called is neither of the two, since these have none. -/
theorem Uncatchable.handler (hhandler : (t.signals.actions signum).handler ≠ sigDfl) (addr : Word) :
    Uncatchable (enterHandler t signum addr).signals := by
  have hkill : signum ≠ sigkill := fun heq => hhandler (heq ▸ h.kill)
  have hstop : signum ≠ sigstop := fun heq => hhandler (heq ▸ h.stop)
  have hmask := h.blocked.or (h.masks signum)
  have hactions : ∀ n, Blockable ((enterHandler t signum addr).signals.actions n).mask ∧
      (n ≠ signum → (enterHandler t signum addr).signals.actions n = t.signals.actions n) := by
    intro n
    unfold enterHandler
    dsimp only
    split
    · by_cases hn : n = signum
      · rw [hn, update_self]
        exact ⟨h.masks signum, absurd rfl⟩
      · rw [update_of_ne hn]
        exact ⟨h.masks n, fun _ => rfl⟩
    · exact ⟨h.masks n, fun _ => rfl⟩
  constructor
  case blocked =>
    show Blockable (handlerMask _ signum t.signals.blocked)
    unfold handlerMask
    split
    · exact hmask
    · exact hmask.add hkill hstop
  case masks => exact fun n => (hactions n).1
  case kill => rw [(hactions sigkill).2 hkill.symm, h.kill]
  case stop => rw [(hactions sigstop).2 hstop.symm, h.stop]

theorem Uncatchable.deliverPending : Uncatchable (signalDeliverPending t).1.signals := by
  rcases signalDeliverPending_cases t with ⟨pending, heq, -⟩ | ⟨signum, pending, hdfl, -, heq⟩ <;>
    rw [heq]
  · exact h.withPending pending
  · exact Uncatchable.handler (t := { t with signals.pending := pending })
      (h.withPending pending) hdfl _

theorem Uncatchable.handleCall (hcare : CarefulCall t) (e : Effect) :
    Uncatchable (handleCall t e).1.signals := by
  unfold Signal.handleCall
  split
  case h_1 hnum => exact h.sigaction (hcare.1 hnum)
  case h_2 hnum => exact h.sigprocmask (hcare.2.1 hnum)
  · exact h
  · split <;> exact h
  · exact h

theorem Uncatchable.step {e} (hcare : Careful t e) (hstep : step t e = some t') :
    Uncatchable t'.signals := by
  cases e with
  | user regs mem =>
    cases hstep
    exact h
  | send signum =>
    obtain ⟨-, rfl⟩ := ite_eq_some hstep
    exact h.withPending _
  | syscall e =>
    cases hstep
    show Uncatchable (syscallDispatch t e).1.signals
    unfold syscallDispatch
    split
    · exact h
    split
    case isTrue hnum =>
      unfold sysSigreturn
      dsimp only
      split
      case isTrue hok => exact h.withBlocked (hcare.2.2 hnum hok)
      · exact h
    · exact (h.handleCall hcare e).deliverPending

end

/-- A signal that is asked to be blocked is blocked, unless it is 10 or 20. -/
theorem sigismember_newMask {n} (hhow : how.setWidth 32 = 0 ∨ how.setWidth 32 = 2)
    (hmask : newMask how set blocked = some mask) (hset : sigismember set n = true) :
    sigismember mask n = true ↔ n ≠ 10 ∧ n ≠ 20 := by
  obtain ⟨mask', hmask', rfl⟩ := map_eq_some_iff.mp hmask
  have hmem : sigismember mask' n = true := by
    rcases hhow with hhow | hhow <;> rw [hhow] at hmask' <;> cases hmask'
    · rw [sigismember_or, hset, Bool.or_true]
    · exact hset
  rw [sigismember_diff, hmem, sigismember_or, sigismember_bit, sigismember_bit, Bool.true_and]
  unfold sigkill sigstop
  simp only [Bool.not_eq_true', Bool.or_eq_false_iff, decide_eq_false_iff_not]
  omega

end Steps

/-! ### Runs -/

/-- In every run of a new process that is careful about the two signals, they cannot be blocked
and keep their default action; and a signal that a `sigprocmask` request wants blocked is blocked
unless it is 10 or 20. -/
theorem sigkill_after_run {t t' : Task} {es : List Event} (hnew : t.signals = signalStateInit)
    (hrun : GuardedRun step Careful t es t') : (sigismember t'.signals.blocked sigkill = false ∧
      sigismember t'.signals.blocked sigstop = false) ∧
    ((t'.signals.actions sigkill).handler = sigDfl ∧
      (t'.signals.actions sigstop).handler = sigDfl) ∧
    ∀ how set oldset kset n, how.setWidth 32 = (0 : BitVec 32) ∨ how.setWidth 32 = (2 : BitVec 32) →
      requestedSet t' set oldset = some kset → n ≠ sigkill → n ≠ sigstop →
      sigismember kset n = true →
      (sigismember (sysSigprocmask t' how set oldset).1.signals.blocked n = true ↔
        n ≠ 10 ∧ n ≠ 20) := by
  have hstart : Uncatchable t.signals := hnew ▸ Uncatchable.init
  have hend := hrun.inv (fun t => Uncatchable t.signals)
    (fun _ _ _ h => h.step) hstart
  refine ⟨hend.blocked, ⟨hend.kill, hend.stop⟩, ?_⟩
  intro how set oldset kset n hhow hread _ _ hmem
  obtain ⟨mask, hmask⟩ : ∃ mask, newMask how kset t'.signals.blocked = some mask := by
    unfold newMask
    rcases hhow with hhow | hhow <;> rw [hhow] <;> exact ⟨_, rfl⟩
  rw [sysSigprocmask_signals, hread, bind_some, hmask]
  exact sigismember_newMask hhow hmask hmem

/-! ### A program -/

/-- A process that calls a function with number `rax`. -/
def callRegs (rax rdi rsi rdx : Word) : Frame :=
  { r15 := 0, r14 := 0, r13 := 0, r12 := 0, rbp := 0, rbx := 0, r9 := 0, r8 := 0, r10 := 0
    rdx := rdx, rsi := rsi, rdi := rdi, rax := rax, rcx := 0x400100, r11 := 0x202
    rsp := 0x700000 }

/-- At 0x2000 an action with the handler 0x401000 and signals 1 and 2 in its mask, at 0x3000 the
set of all signals but 9, 10, 19 and 20, at 0x4000 the set of all signals. -/
def programMem : Buffer := fun a =>
  if a = 0x2001 then 0x10 else if a = 0x2002 then 0x40 else if a = 0x2008 then 3
  else if a = 0x3001 then 0xFC else if a = 0x3002 then 0xF3
  else if 0x3000 ≤ a ∧ a < 0x3008 then 0xFF
  else if 0x4000 ≤ a ∧ a < 0x4008 then 0xFF else 0

def program : Task := ⟨callRegs 0 0 0 0, programMem, signalStateInit⟩

/-- A system call that changes nothing but signals. -/
def quiet : Effect := ⟨0, programMem, none, ⟨0, 0, 0, 0, 0, 0⟩⟩

/-- Signal 12 gets a handler and is delivered at the next call. The handler blocks more signals
and returns. -/
def handleOne : List Event :=
  [.user (callRegs 13 12 0x2000 0) programMem, .syscall quiet, .send 12,
    .user (callRegs 39 0 0 0) programMem, .syscall quiet,
    .user (callRegs 14 0 0x3000 0) programMem, .syscall quiet,
    .user { callRegs 15 0 0 0 with rsp := 0x6FFF70 } programMem, .syscall quiet]

theorem sigkill_after_handleOne : ∃ t, GuardedRun step Careful program handleOne t ∧
      sigismember t.signals.blocked sigkill = false ∧
      sigismember (sysSigprocmask t 0 0x3000 0).1.signals.blocked 15 = true := by
  obtain ⟨t, hrun, hset⟩ : ∃ t, GuardedRun step Careful program handleOne t ∧
      requestedSet t 0x3000 0 = some 0xFFFFFFFFFFF3FCFF := by
    decide +kernel
  obtain ⟨hblocked, -, hrequest⟩ := sigkill_after_run rfl hrun
  refine ⟨t, hrun, hblocked.1, ?_⟩
  apply (hrequest 0 0x3000 0 _ 15 (.inl rfl) hset _ _ _).mpr <;> decide

/-- A request to block all signals blocks `SIGKILL` and `SIGSTOP`, but not the signals 10 and
20. -/
theorem sigprocmask_blocks_kill :
    ((run step program [.user (callRegs 14 0 0x4000 0) programMem, .syscall quiet]).map fun t =>
      (sigismember t.signals.blocked sigkill, sigismember t.signals.blocked sigstop,
        sigismember t.signals.blocked 10, sigismember t.signals.blocked 20)) =
      some (true, true, false, false) := by
  decide +kernel

end Kurios.Signal
