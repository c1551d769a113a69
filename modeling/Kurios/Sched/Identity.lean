import Kurios.Sched.Run

/-!
Which process the CPU runs for.

`current_process` (`kernel/process/process.c`) and CR3 say whose system calls and whose
memory the CPU serves. Neither is part of the context that `context_switch` saves.
They are written when the first process enters user mode, in `fork_child_entry`
(`kernel/syscall/syscall.c`), which every forked child runs once, and CR3 at the end of
a successful `execve`. So they are those of the last process that was started, and a
thread that is resumed after another process has started finds the other's
(`resume_keeps_child`). `cpu_identity` says that they are right as long as no thread of
a process is resumed after a thread of another one has run.

`fork_child_entry` may be preempted between its two assignments, hence `Phase`. During
`execve`, with interrupts off, CR3 is the new address space's or the kernel's for a
while; an `execve` is one event here.
-/

namespace Kurios.Sched

open Base Function Option

variable {cr3 p t : Nat} {c : SchedCall}

/-- Where a thread of a process is: before `process_set_current` in `fork_child_entry`,
between that and `as_switch`, or in user code and system calls. -/
inductive Phase where
  | entry
  | entered
  | user
deriving DecidableEq, Repr

/-- The CPU, and what belongs to whom: `threadProc` is the process of a thread, none for a
kernel thread, `procCr3` is the field `cr3` of a process. `last` is the thread of a process
that ran last. -/
structure CpuHistory where
  sched : SchedState
  currentProcess : Nat
  cr3 : Nat
  procs : List Nat
  procCr3 : Nat → Nat
  threadProc : Nat → Option Nat
  phase : Nat → Phase
  last : Nat

/-- What the running thread does. A failed `fork` or `execve` is `none`. -/
inductive CpuEvent where
  | fork (child : Option (Nat × Nat × Nat))
  | execve (cr3 : Option Nat)
  | enter
  | sched (c : SchedCall)
deriving DecidableEq

namespace CpuHistory

variable (h : CpuHistory)

/-- The running thread is in user code or a system call of a process. -/
def InUser : Prop :=
  h.threadProc h.sched.current ≠ none ∧ h.phase h.sched.current = .user
deriving Decidable

/-- The success of `sys_fork_impl`: a process with an address space of its own, and a
thread that will run `fork_child_entry`. -/
def fork (proc thread cr3 : Nat) : CpuHistory :=
  { h with
    sched := threadCreate h.sched thread
    procs := proc :: h.procs
    procCr3 := update h.procCr3 proc cr3
    threadProc := update h.threadProc thread (some proc)
    phase := update h.phase thread .entry }

/-- The success of `sys_execve_impl`: it replaces the address space of
`process_current()`. -/
def execve (cr3 : Nat) : CpuHistory :=
  { h with
    procCr3 := update h.procCr3 h.currentProcess cr3
    cr3 := cr3 }

/-- One half of `fork_child_entry`, for the process `proc`. -/
def enter (proc : Nat) : CpuHistory :=
  let t := h.sched.current
  match h.phase t with
  | .entry => { h with currentProcess := proc, phase := update h.phase t .entered }
  | .entered =>
    { h with
      cr3 := if h.procCr3 proc ≠ 0 then h.procCr3 proc else h.cr3
      phase := update h.phase t .user }
  | .user => h

/-- The scheduler runs, and `context_switch` with it. -/
def reschedule (sched : SchedState) : CpuHistory :=
  { h with
    sched := sched
    last := if h.threadProc sched.current = none then h.last else sched.current }

/-- One event. Memory for processes, threads and page tables is new, and page tables are
not at address zero. -/
def step : CpuEvent → Option CpuHistory
  | .fork none => if h.InUser then some h else none
  | .fork (some (proc, thread, cr3)) =>
    if h.InUser ∧ proc ∉ h.procs ∧ thread ∉ h.sched.threads ∧ cr3 ≠ 0 then
      some (h.fork proc thread cr3)
    else none
  | .execve none => if h.InUser then some h else none
  | .execve (some cr3) => if h.InUser ∧ cr3 ≠ 0 then some (h.execve cr3) else none
  | .enter => (h.threadProc h.sched.current).map h.enter
  | .sched c => if c.Allowed h.sched then (h.sched.step c).map h.reschedule else none

/-- The first process has just entered user mode on the running thread; all other threads
are kernel threads. -/
def start (sched : SchedState) (init cr3 : Nat) : CpuHistory where
  sched := sched
  currentProcess := init
  cr3 := cr3
  procs := [init]
  procCr3 := fun _ => cr3
  threadProc := fun t => if t = sched.current then some init else none
  phase := fun _ => .user
  last := sched.current

/-- While a thread of a process is in user code or a system call, `process_current()` is
that process and its page tables are loaded. -/
def Identity : Prop :=
  ∀ p, h.threadProc h.sched.current = some p → h.phase h.sched.current = .user →
    h.currentProcess = p ∧ h.cr3 = h.procCr3 p

/-- The thread that runs after the event is a kernel thread, a child that has not run yet, or
the thread of a process that ran last. -/
def Resumes : CpuEvent → Prop
  | .sched c => ∀ s ∈ h.sched.step c,
      h.threadProc s.current = none ∨ h.phase s.current = .entry ∨ s.current = h.last
  | _ => True

instance (h : CpuHistory) (e : CpuEvent) : Decidable (h.Resumes e) := by
  unfold Resumes
  split <;> infer_instance

end CpuHistory

/-! ### The table of threads -/

section Threads

variable {s s' : SchedState}

/-- The table of threads and the idle thread are the same. -/
structure SameTable (s s' : SchedState) : Prop where
  threads : s'.threads = s.threads
  idle : s'.idle = s.idle

theorem SameTable.refl (s : SchedState) : SameTable s s := ⟨rfl, rfl⟩

theorem SameTable.trans {s1 s2 s3} (h : SameTable s1 s2) (h' : SameTable s2 s3) : SameTable s1 s3 :=
  ⟨h'.threads.trans h.threads, h'.idle.trans h.idle⟩

theorem SameRoles.table (h : SameRoles s s') : SameTable s s' := ⟨h.threads, h.idle⟩

theorem wakeFrom_table {now fuel curr}
    (h : wakeFrom now fuel curr s = some s') : SameTable s s' := by
  induction fuel generalizing curr s with
  | zero =>
    cases curr with
    | none => exact some.inj h ▸ SameTable.refl s
    | some t => cases h
  | succ n ih =>
    cases curr with
    | none => exact some.inj h ▸ SameTable.refl s
    | some t =>
      rw [wakeFrom] at h
      split at h
      · have hrest := ih h
        exact ⟨hrest.threads, hrest.idle⟩
      · exact ih h

theorem putBack_table (s : SchedState) (t : Nat) : SameTable s (putBack s t) := by
  unfold putBack
  split
  · exact (roles_queueAdd s t).table
  · exact ((roles_queueAdd s t).setState t .sleeping).table
  · exact ((roles_queueAdd s t).setState t .blocked).table
  · exact SameTable.refl s
  · exact SameTable.refl s

theorem queueRemove_table (h : queueRemove s t = some s') : SameTable s s' := by
  obtain ⟨found, -, rfl⟩ := map_eq_some_iff.mp h
  split
  · exact (roles_unlink s t).table
  · exact SameTable.refl s

theorem switchTo_table {next} (h : switchTo s next = some s') : SameTable s s' := by
  unfold switchTo at h
  split at h
  · cases h
    split <;> exact ⟨rfl, rfl⟩
  · obtain ⟨s1, hremove, rfl⟩ := map_eq_some_iff.mp h
    have hsame := (putBack_table s s.current).trans (queueRemove_table hremove)
    exact ⟨hsame.threads, hsame.idle⟩

theorem schedReschedule_table (h : schedReschedule s = some s') : SameTable s s' := by
  obtain ⟨⟨next, s1⟩, hpick, hswitch⟩ := bind_eq_some_iff.mp h
  obtain ⟨s2, hwake, hfind⟩ := bind_eq_some_iff.mp hpick
  obtain ⟨found, -, ⟨⟩⟩ := map_eq_some_iff.mp hfind
  exact (wakeFrom_table hwake).trans (switchTo_table hswitch)

theorem schedTick_table (h : schedTick s = some s') : SameTable s s' := by
  simp only [schedTick] at h
  split at h
  · cases h
    exact ⟨rfl, rfl⟩
  obtain ⟨s1, hwake, hrest⟩ := bind_eq_some_iff.mp h
  have hwoken := wakeFrom_table hwake
  split at hrest
  · have hsame := schedReschedule_table hrest
    exact ⟨hsame.threads.trans hwoken.threads, hsame.idle.trans hwoken.idle⟩
  · cases hrest
    exact ⟨hwoken.threads, hwoken.idle⟩

theorem threadUnblock_table (s : SchedState) (t : Nat) : SameTable s (threadUnblock s t) := by
  unfold threadUnblock schedReady
  split
  · split
    · exact ⟨rfl, rfl⟩
    · have hsame := (roles_queueAdd (s.setState t .ready) t).table
      exact ⟨hsame.threads, hsame.idle⟩
  · exact SameTable.refl s

/-- Only `thread_create` adds to the table. -/
theorem step_table (h : s.step c = some s') : SameTable s s' ∨
      ∃ t, s'.threads = t :: s.threads ∧ s'.idle = s.idle := by
  cases c with
  | create t =>
    cases h
    rw [threadCreate_eq]
    have hroles := roles_queueAdd
      { s with thread := update s.thread t newThread, threads := t :: s.threads } t
    exact .inr ⟨t, hroles.threads, hroles.idle⟩
  | reschedule => exact .inl (schedReschedule_table h)
  | sleep ms freq =>
    simp only [SchedState.step, threadSleepMs] at h
    split at h
    · exact .inl (some.inj h ▸ SameTable.refl s)
    · have hsame := schedReschedule_table h
      exact .inl ⟨hsame.threads, hsame.idle⟩
  | unblock t => exact .inl (some.inj h ▸ threadUnblock_table s t)
  | block | exit =>
    have hsame := schedReschedule_table h
    exact .inl ⟨hsame.threads, hsame.idle⟩
  | tick => exact .inl (schedTick_table h)

/-- Threads stay in the table. -/
theorem mem_threads_of_step (h : s.step c = some s') (ht : t ∈ s.threads) : t ∈ s'.threads := by
  rcases step_table h with hsame | ⟨new, hnew, -⟩
  · rwa [hsame.threads]
  · rw [hnew]
    exact List.mem_cons_of_mem new ht

end Threads

/-! ### Identity -/

/-- What the last thread of a process leaves behind. -/
structure Serves (h : CpuHistory) : Prop where
  current : h.threadProc h.sched.current ≠ none → h.sched.current = h.last
  entered : ∀ p, h.threadProc h.last = some p → h.phase h.last ≠ .entry → h.currentProcess = p
  user : ∀ p, h.threadProc h.last = some p → h.phase h.last = .user → h.cr3 = h.procCr3 p
  unknown : ∀ t, t ∉ h.sched.threads → h.threadProc t = none
  procs : ∀ t p, h.threadProc t = some p → p ∈ h.procs
  tables : ∀ p ∈ h.procs, h.procCr3 p ≠ 0

namespace Serves

variable {h : CpuHistory}

theorem of_start {sched} (hcur : sched.current ∈ sched.threads) {init}
    (hcr3 : cr3 ≠ 0) : Serves (CpuHistory.start sched init cr3) where
  current := by
    intro hproc
    rfl
  entered := by
    intro p hp _
    simpa [CpuHistory.start] using hp
  user := fun _ _ _ => rfl
  unknown := by
    intro t ht
    apply if_neg
    rintro rfl
    exact ht hcur
  procs := by
    intro t p hp
    simp only [CpuHistory.start] at hp
    split at hp
    · exact List.mem_singleton.mpr (some.inj hp).symm
    · cases hp
  tables := fun _ _ => hcr3

section

variable (hs : Serves h)
include hs

theorem identity : h.Identity := by
  intro p hp huser
  have hlast := hs.current (by simp [hp])
  rw [hlast] at hp huser
  exact ⟨hs.entered p hp (by simp [huser]), hs.user p hp huser⟩

theorem fork {proc thread} (huser : h.InUser) (hproc : proc ∉ h.procs)
    (hthread : thread ∉ h.sched.threads) (hcr3 : cr3 ≠ 0) : Serves (h.fork proc thread cr3) := by
  have hroles : (threadCreate h.sched thread).threads = thread :: h.sched.threads ∧
      (threadCreate h.sched thread).current = h.sched.current := by
    rw [threadCreate_eq]
    exact ⟨(roles_queueAdd _ thread).threads, (roles_queueAdd _ thread).current⟩
  have hlast : h.last ≠ thread := by
    rw [← hs.current huser.1]
    rintro rfl
    exact huser.1 (hs.unknown _ hthread)
  have hkept : ∀ p ∈ h.procs, update h.procCr3 proc cr3 p = h.procCr3 p := by
    intro p hp
    apply update_of_ne
    rintro rfl
    exact hproc hp
  constructor
  · intro _
    exact hroles.2.trans (hs.current huser.1)
  · intro p hp hphase
    simp only [CpuHistory.fork, update_of_ne hlast] at hp hphase
    exact hs.entered p hp hphase
  · intro p hp hphase
    simp only [CpuHistory.fork, update_of_ne hlast] at hp hphase ⊢
    rw [hkept p (hs.procs _ p hp)]
    exact hs.user p hp hphase
  · intro t ht
    simp only [CpuHistory.fork, hroles.1, List.mem_cons, not_or] at ht ⊢
    rw [update_of_ne ht.1]
    exact hs.unknown t ht.2
  · intro t p hp
    simp only [CpuHistory.fork, update_apply] at hp
    split at hp
    · exact List.mem_cons.mpr (.inl (some.inj hp).symm)
    · exact List.mem_cons_of_mem _ (hs.procs t p hp)
  intro p hp
  simp only [CpuHistory.fork]
  rcases List.mem_cons.mp hp with rfl | hold
  · rwa [update_self]
  · rw [hkept p hold]
    exact hs.tables p hold

theorem execve (hcr3 : cr3 ≠ 0) : Serves (h.execve cr3) := by
  constructor
  · exact hs.current
  · exact hs.entered
  · intro p hp hphase
    -- the process whose address space was replaced is the one the thread belongs to
    have hcur : h.currentProcess = p := hs.entered p hp (hphase.trans_ne (by decide))
    simp [CpuHistory.execve, hcur]
  · exact hs.unknown
  · exact hs.procs
  intro p hp
  simp only [CpuHistory.execve, update_apply]
  split
  · exact hcr3
  · exact hs.tables p hp

theorem enter (hp : h.threadProc h.sched.current = some p) : Serves (h.enter p) := by
  have hlast := hs.current (by simp [hp])
  rw [hlast] at hp
  have howner : ∀ p', h.threadProc h.last = some p' → p' = p :=
    fun p' hp' => some.inj (hp'.symm.trans hp)
  simp only [CpuHistory.enter, hlast]
  cases hphase : h.phase h.last with
  | entry =>
    refine ⟨hs.current, fun p' hp' _ => (howner p' hp').symm, ?_, hs.unknown, hs.procs, hs.tables⟩
    intro p' _ huser
    simp [update_self] at huser
  | entered =>
    refine ⟨hs.current, ?_, ?_, hs.unknown, hs.procs, hs.tables⟩ <;> intro p' hp' _
    · exact hs.entered p' hp' (by simp [hphase])
    · rw [howner p' hp']
      exact if_pos (hs.tables p (hs.procs _ p hp))
  | user => exact hs

theorem reschedule {s} (hstep : h.sched.step c = some s)
    (hresumes : h.threadProc s.current = none ∨ h.phase s.current = .entry ∨ s.current = h.last) :
    Serves (h.reschedule s) := by
  have hunknown : ∀ t, t ∉ s.threads → h.threadProc t = none := by
    intro t ht
    apply hs.unknown t
    exact fun hold => ht (mem_threads_of_step hstep hold)
  unfold CpuHistory.reschedule
  by_cases hkernel : h.threadProc s.current = none
  · rw [if_pos hkernel]
    exact ⟨absurd hkernel, hs.entered, hs.user, hunknown, hs.procs, hs.tables⟩
  rw [if_neg hkernel]
  rcases hresumes with hnone | hent | hlast
  · exact absurd hnone hkernel
  · refine ⟨fun _ => rfl, ?_, ?_, hunknown, hs.procs, hs.tables⟩
    · exact fun p _ => absurd hent
    · exact fun p _ huser => absurd (hent.symm.trans huser) (by decide)
  · rw [hlast]
    exact ⟨fun _ => hlast, hs.entered, hs.user, hunknown, hs.procs, hs.tables⟩

theorem step {h' e} (hresumes : h.Resumes e) (hstep : h.step e = some h') : Serves h' := by
  cases e with
  | fork child =>
    cases child with
    | none =>
      simp only [CpuHistory.step] at hstep
      split at hstep
      · exact some.inj hstep ▸ hs
      · cases hstep
    | some child =>
      obtain ⟨hfork, rfl⟩ := ite_eq_some hstep
      exact hs.fork hfork.1 hfork.2.1 hfork.2.2.1 hfork.2.2.2
  | execve cr3 =>
    cases cr3 with
    | none =>
      simp only [CpuHistory.step] at hstep
      split at hstep
      · exact some.inj hstep ▸ hs
      · cases hstep
    | some cr3 =>
      obtain ⟨hexec, rfl⟩ := ite_eq_some hstep
      exact hs.execve hexec.2
  | enter =>
    obtain ⟨p, hp, rfl⟩ := map_eq_some_iff.mp hstep
    exact hs.enter hp
  | sched c =>
    simp only [CpuHistory.step] at hstep
    split at hstep
    · obtain ⟨s, hs', rfl⟩ := map_eq_some_iff.mp hstep
      exact hs.reschedule hs' (hresumes s hs')
    · cases hstep

end

end Serves

/-- Init sleeps and is resumed after the idle thread has run, forks and yields, first to the
idle thread; the child enters user mode, in two halves with a tick in between, and replaces
its program. -/
def forkAndExec : List CpuEvent :=
  [.sched (.sleep 10 100), .sched .tick, .sched .reschedule, .fork (some (7, 2, 0x9000)),
    .execve none, .sched .reschedule, .sched .reschedule, .enter, .sched .tick, .enter,
    .execve (some 0xA000)]

end Kurios.Sched
