import Kurios.Sched.Run

/-!
System calls on the one `kernel_syscall_stack`.

`syscall_entry` (`kernel/syscall/syscall_entry.asm`) starts every system call of every
thread at `kernel_syscall_stack_top`, so the frame with the caller's registers is always
in the same sixteen words. A handler that gives up the CPU leaves its frame there, and
the next thread that executes `SYSCALL` pushes its own over it; the first one then
returns to where the second one came from (`yield_returns_elsewhere`).
`syscall_context` says that every call returns to its own thread's context as long as no
thread enters a system call while another is inside one.

Words of the stack are counted from the top. Below the frame are the C frames of the
handler and, while it is switched out, what `context_switch` has saved: `handler` writes
there as it pleases. `execve`, `sigreturn` and the delivery of a signal write to the
frame itself, which is `rewrite`.
-/

namespace Kurios.Sched

open Base Function List

/-! ### The entry stub -/

/-- The registers of a thread when it executes `SYSCALL`. -/
structure Regs where
  rax : Nat
  rbx : Nat
  rdx : Nat
  rsi : Nat
  rdi : Nat
  rbp : Nat
  rsp : Nat
  r8 : Nat
  r9 : Nat
  r10 : Nat
  r12 : Nat
  r13 : Nat
  r14 : Nat
  r15 : Nat
  rip : Nat
  rflags : Nat
deriving DecidableEq, Repr

/-- What a system call preserves. -/
structure Context where
  rip : Nat
  rsp : Nat
  rflags : Nat
  rbx : Nat
  rbp : Nat
  r12 : Nat
  r13 : Nat
  r14 : Nat
  r15 : Nat
deriving DecidableEq, Repr

def Regs.context (r : Regs) : Context :=
  { rip := r.rip, rsp := r.rsp, rflags := r.rflags, rbx := r.rbx, rbp := r.rbp, r12 := r.r12,
    r13 := r.r13, r14 := r.r14, r15 := r.r15 }

/-- The flags `SYSRET` loads from R11; those of a thread in user mode are of this form. -/
def sysretFlags (r11 : Nat) : Nat := (r11 &&& 0x3C7FD7) ||| 2

/-- The stack: its words from the top, and how many of them are in use. -/
structure KStack where
  words : Nat → Nat
  depth : Nat

namespace KStack

def push (k : KStack) (value : Nat) : KStack :=
  ⟨update k.words k.depth value, k.depth + 1⟩

def pop : StateM KStack Nat := fun k =>
  (k.words (k.depth - 1), { k with depth := k.depth - 1 })

/-- `add rsp, 8 * n`. -/
def skip (n : Nat) : StateM KStack Unit := fun k => ((), { k with depth := k.depth - n })

end KStack

/-- What `syscall_entry` pushes. `SYSCALL` has put the user's RIP into RCX and the flags
into R11. -/
def framePushes (r : Regs) : List Nat :=
  let rcx := r.rip
  let r11 := r.rflags
  [r.rsp, r11, rcx, r.rax, r.rdi, r.rsi, r.rdx, r.r10, r.r8, r.r9, r.rbx, r.rbp, r.r12, r.r13,
    r.r14, r.r15]

/-- `syscall_entry` up to the call of `syscall_dispatch`. -/
def syscallEntry (words : Nat → Nat) (r : Regs) : KStack :=
  (framePushes r).foldl KStack.push ⟨words, 0⟩

/-- `syscall_entry` after `syscall_dispatch` has returned, and `SYSRET`. -/
def syscallExit : StateM KStack Context := do
  let r15 ← KStack.pop
  let r14 ← KStack.pop
  let r13 ← KStack.pop
  let r12 ← KStack.pop
  let rbp ← KStack.pop
  let rbx ← KStack.pop
  KStack.skip 6
  KStack.skip 1
  let rcx ← KStack.pop
  let r11 ← KStack.pop
  let rsp ← KStack.pop
  return { rip := rcx, rsp := rsp, rflags := sysretFlags r11, rbx := rbx, rbp := rbp, r12 := r12,
           r13 := r13, r14 := r14, r15 := r15 }

/-- The number of words in a frame. -/
def frameWords : Nat := 16

/-- The frame of `r` is on the stack. -/
def HoldsFrame (words : Nat → Nat) (r : Regs) : Prop :=
  ∀ i < frameWords, words i = (framePushes r).getD i 0

theorem KStack.words_foldl_push (l : List Nat) (words : Nat → Nat) (depth i : Nat) :
    (l.foldl KStack.push ⟨words, depth⟩).words i =
      if depth ≤ i ∧ i < depth + l.length then l.getD (i - depth) 0 else words i := by
  induction l generalizing words depth with
  | nil =>
    rw [if_neg (by simp only [length_nil]; omega)]
    rfl
  | cons x xs ih =>
    show (xs.foldl KStack.push ⟨update words depth x, depth + 1⟩).words i = _
    rw [ih, length_cons]
    rcases Nat.lt_trichotomy i depth with hlt | rfl | hgt
    · rw [if_neg (by omega), if_neg (by omega), update_of_ne hlt.ne]
    · rw [if_neg (by omega), if_pos (by omega), update_self, Nat.sub_self]
      rfl
    obtain ⟨j, rfl⟩ := Nat.exists_eq_add_of_le hgt
    rw [update_of_ne hgt.ne', Nat.succ_eq_add_one, Nat.add_sub_cancel_left,
      add_assoc depth 1 j, Nat.add_sub_cancel_left, add_comm 1 j]
    apply if_congr _ rfl rfl
    omega

theorem syscallEntry_frame (words : Nat → Nat) (r : Regs) :
    HoldsFrame (syscallEntry words r).words r := by
  intro i hi
  rw [syscallEntry, KStack.words_foldl_push, if_pos ⟨zero_le, by rwa [zero_add]⟩]
  rfl

variable {r : Regs}

theorem syscallExit_eq (words : Nat → Nat) : (syscallExit.run ⟨words, frameWords⟩).1 =
    ⟨words 2, words 0, sysretFlags (words 1), words 10, words 11, words 12, words 13, words 14,
      words 15⟩ := rfl

/-- The exit stub pops what the entry stub has pushed. -/
theorem syscallExit_context {words} (h : HoldsFrame words r)
    (hflags : sysretFlags r.rflags = r.rflags) :
    (syscallExit.run ⟨words, frameWords⟩).1 = r.context := by
  have hrflags : sysretFlags (words 1) = r.rflags :=
    (congrArg sysretFlags (h 1 (by decide))).trans hflags
  rw [syscallExit_eq, hrflags, h 0 (by decide), h 2 (by decide), h 10 (by decide), h 11 (by decide),
    h 12 (by decide), h 13 (by decide), h 14 (by decide), h 15 (by decide)]
  rfl

/-! ### Histories -/

/-- A system call that has returned: the context its thread had when it executed
`SYSCALL`, the one it returned to, and whether the kernel changed the frame on purpose. -/
structure SyscallReturn where
  entered : Context
  returned : Context
  rewritten : Bool
deriving DecidableEq, Repr

/-- The stack, and the threads `inside` a system call with the registers they entered it
with. `left t` is the stack as `t` left it when it last gave up the CPU. -/
structure StackHistory where
  sched : SchedState
  words : Nat → Nat
  inside : List Nat
  entered : Nat → Regs
  rewritten : Nat → Bool
  left : Nat → Nat → Nat
  returns : List SyscallReturn

inductive StackEvent where
  | syscall (r : Regs)
  | handler (w : Nat → Option Nat)
  | rewrite (w : Nat → Option Nat)
  | sched (c : SchedCall)
  | sysret

namespace StackHistory

def start (sched : SchedState) (words : Nat → Nat) : StackHistory where
  sched := sched
  words := words
  inside := []
  entered := fun _ => ⟨0, 0, 0, 0, 0, 0, 0, 0, 0, 0, 0, 0, 0, 0, 0, 0⟩
  rewritten := fun _ => false
  left := fun _ => words
  returns := []

variable (h : StackHistory)

/-- The running thread executes `SYSCALL`. -/
def enter (r : Regs) : StackHistory :=
  { h with
    words := (syscallEntry h.words r).words
    inside := h.sched.current :: h.inside
    entered := update h.entered h.sched.current r
    rewritten := update h.rewritten h.sched.current false }

/-- The running thread leaves its system call. -/
def leave : StackHistory :=
  let t := h.sched.current
  { h with
    inside := h.inside.erase t
    returns := ⟨(h.entered t).context, (syscallExit.run ⟨h.words, frameWords⟩).1, h.rewritten t⟩ ::
      h.returns }

/-- One event of the running thread. -/
def step : StackEvent → Option StackHistory
  | .syscall r =>
    if h.sched.current ∉ h.inside ∧ sysretFlags r.rflags = r.rflags then some (h.enter r) else none
  | .handler w =>
    if h.sched.current ∈ h.inside then
      some { h with words := fun i => if i < frameWords then h.words i else (w i).getD (h.words i) }
    else none
  | .rewrite w =>
    if h.sched.current ∈ h.inside then
      some { h with
        words := fun i => if i < frameWords then (w i).getD (h.words i) else h.words i
        rewritten := update h.rewritten h.sched.current true }
    else none
  | .sched c =>
    if c.Allowed h.sched then
      (h.sched.step c).map fun s =>
        { h with sched := s, left := update h.left h.sched.current h.words }
    else none
  | .sysret => if h.sched.current ∈ h.inside then some h.leave else none

/-- Nobody is inside a system call when a thread enters one. -/
def Alone : StackEvent → Prop
  | .syscall _ => h.inside = []
  | _ => True

instance (h : StackHistory) (e : StackEvent) : Decidable (h.Alone e) := by
  cases e <;> unfold Alone <;> infer_instance

/-- Every call whose frame was not changed on purpose has returned to its own context, and
every handler that is switched out will find the stack as it left it. -/
structure Preserved (h : StackHistory) : Prop where
  returns : ∀ r ∈ h.returns, r.rewritten = false → r.returned = r.entered
  suspended : ∀ t ∈ h.inside, t ≠ h.sched.current → h.words = h.left t

end StackHistory

/-- The stack belongs to the one thread that is inside a system call. -/
structure OwnsStack (h : StackHistory) : Prop extends h.Preserved where
  single : ∀ t ∈ h.inside, h.inside = [t]
  frame : ∀ t ∈ h.inside, h.rewritten t = false → HoldsFrame h.words (h.entered t)
  flags : ∀ t ∈ h.inside, sysretFlags (h.entered t).rflags = (h.entered t).rflags

namespace OwnsStack

variable {h h' : StackHistory}

theorem of_start (sched : SchedState) (words : Nat → Nat) :
    OwnsStack (StackHistory.start sched words) where
  returns := fun _ hr => absurd hr not_mem_nil
  suspended := fun _ ht => absurd ht not_mem_nil
  single := fun _ ht => absurd ht not_mem_nil
  frame := fun _ ht => absurd ht not_mem_nil
  flags := fun _ ht => absurd ht not_mem_nil

/-- While the running thread is inside a system call, it is the only one. -/
theorem eq_current (ho : OwnsStack h) (hin : h.sched.current ∈ h.inside) {t}
    (ht : t ∈ h.inside) : t = h.sched.current := by
  rw [ho.single _ hin] at ht
  exact mem_singleton.mp ht

theorem syscall (ho : OwnsStack h) (halone : h.inside = [])
    (hflags : sysretFlags r.rflags = r.rflags) : OwnsStack (h.enter r) := by
  have hinside : (h.enter r).inside = [h.sched.current] := congrArg (h.sched.current :: ·) halone
  have hthe : ∀ t ∈ (h.enter r).inside, t = h.sched.current := by
    intro t ht
    rw [hinside] at ht
    exact mem_singleton.mp ht
  have hentered : (h.enter r).entered h.sched.current = r := update_self _ _ _
  constructor
  · exact ⟨ho.returns, fun t ht => absurd (hthe t ht)⟩
  · intro t ht
    rw [hthe t ht, hinside]
  · intro t ht _
    rw [hthe t ht, hentered]
    exact syscallEntry_frame h.words r
  · intro t ht
    rw [hthe t ht, hentered]
    exact hflags

theorem step (ho : OwnsStack h) {e} (halone : h.Alone e) (hstep : h.step e = some h') :
    OwnsStack h' := by
  cases e with
  | syscall r =>
    obtain ⟨hok, rfl⟩ := ite_eq_some hstep
    exact ho.syscall halone hok.2
  | handler w =>
    obtain ⟨hin, rfl⟩ := ite_eq_some hstep
    refine ⟨⟨ho.returns, fun t ht => absurd (ho.eq_current hin ht)⟩, ho.single, ?_, ho.flags⟩
    intro t ht hkept i hi
    rw [← ho.frame t ht hkept i hi]
    exact if_pos hi
  | rewrite w =>
    obtain ⟨hin, rfl⟩ := ite_eq_some hstep
    refine ⟨⟨ho.returns, fun t ht => absurd (ho.eq_current hin ht)⟩, ho.single, ?_, ho.flags⟩
    intro t ht hkept
    change update h.rewritten h.sched.current true t = false at hkept
    rw [ho.eq_current hin ht, update_self] at hkept
    cases hkept
  | sched c =>
    simp only [StackHistory.step] at hstep
    split at hstep
    · obtain ⟨s, -, rfl⟩ := Option.map_eq_some_iff.mp hstep
      refine ⟨⟨ho.returns, fun t ht _ => ?_⟩, ho.single, ho.frame, ho.flags⟩
      show h.words = update h.left h.sched.current h.words t
      by_cases hcur : t = h.sched.current
      · rw [hcur, update_self]
      · rw [update_of_ne hcur]
        exact ho.suspended t ht hcur
    · cases hstep
  | sysret =>
    obtain ⟨hin, rfl⟩ := ite_eq_some hstep
    have hemp : h.leave.inside = [] := by
      have hthe := ho.single _ hin
      simp only [StackHistory.leave]
      rw [hthe]
      simp
    refine ⟨⟨?_, ?_⟩, ?_, ?_, ?_⟩
    · intro r hr hkept
      rcases mem_cons.mp hr with rfl | hold
      · exact syscallExit_context (ho.frame _ hin hkept) (ho.flags _ hin)
      · exact ho.returns r hold hkept
    all_goals
      intro t ht
      rw [hemp] at ht
      exact absurd ht not_mem_nil

end OwnsStack

/-- As long as no thread enters a system call while another is inside one, every call
returns to the context of its own thread. -/
theorem syscall_context {sched : SchedState} {words : Nat → Nat} {events : List StackEvent}
    {h : StackHistory}
    (hrun : GuardedRun StackHistory.step StackHistory.Alone (StackHistory.start sched words)
      events h) : h.Preserved :=
  (hrun.inv OwnsStack (fun _ _ _ ho => ho.step)
    (OwnsStack.of_start sched words)).toPreserved

/-- The registers of the two threads of the runs below. -/
def parentRegs : Regs := ⟨24, 1, 0, 0, 0, 2, 0x7FFF0000, 0, 0, 0, 3, 4, 5, 6, 0x401000, 0x202⟩
def childRegs : Regs := ⟨24, 7, 0, 0, 0, 8, 0x7FFE0000, 0, 0, 0, 9, 10, 11, 12, 0x402000, 0x202⟩

/-- The parent creates a thread, calls and yields to it inside the call; the other thread
runs in user mode until the timer switches back, and calls when the parent has returned. -/
def yieldAlone : List StackEvent :=
  [.sched (.create 2), .syscall parentRegs, .handler (fun i => some i), .sched .reschedule,
    .sched .reschedule, .sysret, .sched .reschedule, .syscall childRegs, .sysret]

theorem syscall_context_yieldAlone :
    ∃ s h, threadInit 0 1 = some s ∧
      GuardedRun StackHistory.step StackHistory.Alone
        (StackHistory.start (schedStart s) fun _ => 0) yieldAlone h ∧
      h.returns.length = 2 ∧ h.Preserved := by
  apply exists₂_and_of (by decide +kernel)
  intro s h _ hrun _
  exact syscall_context hrun

/-- Two threads yield inside their system calls, one after the other: the first returns to
the context of the second. -/
theorem yield_returns_elsewhere :
    ∃ s h, threadInit 0 1 = some s ∧
      run StackHistory.step (StackHistory.start (schedStart s) fun _ => 0)
        [.sched (.create 2), .syscall parentRegs, .sched .reschedule, .syscall childRegs,
          .sched .reschedule, .sysret] = some h ∧
      h.returns = [⟨parentRegs.context, childRegs.context, false⟩] ∧ ¬ h.Preserved := by
  apply exists₂_and_of (by decide +kernel)
  intro s h _ _ hreturns hpreserved
  have hwrong := hpreserved.returns _ (hreturns ▸ mem_singleton.mpr rfl) rfl
  exact absurd hwrong (by decide)

/-! ### The registers that user code finds

`syscall_entry` loads the callee-saved registers, RCX, R11 and RSP from the frame. The
registers of the arguments keep what the C code has left in them. `fork_child_return` loads
RAX, RCX, R11 and RSP for a child, and clears the others.
-/

/-- The registers that `syscall_entry` does not load after `syscall_dispatch` has returned. -/
@[ext]
structure Scratch where
  rdx : Nat
  rsi : Nat
  rdi : Nat
  r8 : Nat
  r9 : Nat
  r10 : Nat

/-- The registers in user mode; RCX is RIP, and R11 the flags. -/
def userRegs (c : Context) (rax : Nat) (x : Scratch) : Regs :=
  ⟨rax, c.rbx, x.rdx, x.rsi, x.rdi, c.rbp, c.rsp, x.r8, x.r9, x.r10, c.r12, c.r13, c.r14, c.r15,
    c.rip, c.rflags⟩

/-- A system call from `SYSCALL` to `SYSRET`: the C code writes `below` the frame, where the
stack had `words`, changes the `frame` as `execve`, `sigreturn` and signals do, returns `rax`
and leaves `x`. -/
def syscallRegs (words : Nat → Nat) (r : Regs) (below frame : Nat → Option Nat) (rax : Nat)
    (x : Scratch) : Regs :=
  let words := (syscallEntry words r).words
  let words := fun i => ((if i < frameWords then frame else below) i).getD (words i)
  userRegs (syscallExit.run ⟨words, frameWords⟩).1 rax x

theorem userRegs_context (c : Context) (rax : Nat) (x : Scratch) :
    (userRegs c rax x).context = c := rfl

variable {words words' : Nat → Nat}

/-- **Registers after a system call.** Two calls with the same registers at the entry, the same
result and the same change of the frame return the same registers exactly if the C code leaves
the same values in the registers of the arguments. -/
theorem user_regs_eq_iff (r : Regs) (words words' : Nat → Nat)
    (below below' frame : Nat → Option Nat) (rax : Nat) (x x' : Scratch) :
    syscallRegs words r below frame rax x = syscallRegs words' r below' frame rax x' ↔ x = x' := by
  constructor
  · intro heq
    exact Scratch.ext (congrArg Regs.rdx heq) (congrArg Regs.rsi heq) (congrArg Regs.rdi heq)
      (congrArg Regs.r8 heq) (congrArg Regs.r9 heq) (congrArg Regs.r10 heq)
  rintro rfl
  -- The exit stub reads the frame only.
  refine congrArg (userRegs · rax x) ?_
  have hsame : ∀ i < frameWords, (syscallEntry words r).words i = (syscallEntry words' r).words i :=
    fun i hi => (syscallEntry_frame words r i hi).trans (syscallEntry_frame words' r i hi).symm
  rw [syscallExit_eq, syscallExit_eq]
  simp (disch := decide) only [if_pos, hsame]

/-- A pointer that the kernel leaves in RDI is seen by the caller. -/
theorem kernel_pointer_in_rdi :
    (syscallRegs (fun _ => 0) parentRegs (fun _ => none) (fun _ => none) 0
      ⟨0, 0, 0xFFFF800000100000, 0, 0, 0⟩).rdi = 0xFFFF800000100000 ∧
    (syscallRegs (fun _ => 0) parentRegs (fun _ => none) (fun _ => none) 0
      ⟨0, 0, 0, 0, 0, 0⟩).rdi = 0 := by
  decide

/-! ### `fork` -/

/-- The frame in `fork_child_ctx_t`: a copy with 0 for RAX, which is the fourth word. -/
def forkFrame (frame : Nat → Nat) : Nat → Nat := update frame 3 0

/-- `fork_child_return`, and `SYSRET`. -/
def forkChildReturn (frame : Nat → Nat) : Regs :=
  userRegs ⟨frame 2, frame 0, sysretFlags (frame 1), 0, 0, 0, 0, 0, 0⟩ (frame 3) ⟨0, 0, 0, 0, 0, 0⟩

/-- The registers of the child of a thread that calls `fork` with the registers `r`. -/
def forkChildRegs (words : Nat → Nat) (r : Regs) : Regs :=
  forkChildReturn (forkFrame (syscallEntry words r).words)

theorem forkChildRegs_eq (hflags : sysretFlags r.rflags = r.rflags) (words : Nat → Nat) :
    forkChildRegs words r =
      userRegs ⟨r.rip, r.rsp, r.rflags, 0, 0, 0, 0, 0, 0⟩ 0 ⟨0, 0, 0, 0, 0, 0⟩ := by
  have hframe := syscallEntry_frame words r
  have hrsp : (syscallEntry words r).words 0 = r.rsp := hframe 0 (by decide)
  have hr11 : (syscallEntry words r).words 1 = r.rflags := hframe 1 (by decide)
  have hrip : (syscallEntry words r).words 2 = r.rip := hframe 2 (by decide)
  unfold forkChildRegs forkChildReturn forkFrame
  rw [update_self, update_of_ne (by decide), update_of_ne (by decide), update_of_ne (by decide),
    hrsp, hr11, hrip, hflags]

end Kurios.Sched
