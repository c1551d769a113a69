import Kurios.Sched.Identity
import Kurios.Sched.Parked
import Kurios.Signal.Defs

/-!
What the default action of a signal does to the threads of a process.

`process_exit` and `process_stop` (`kernel/process/process.c`) set the state of the process
and return. No thread is blocked or ended, the scheduler does not look at the state of
processes, and `syscall_dispatch` goes on to user mode: a process that kills or stops
itself goes on (`killed_runs_on`). Signals are delivered to `process_current()` at the end
of a system call, which may be another process than the running thread's. If all threads
of that process are blocked at that time, then it does not run afterwards, a stopped one
until `SIGCONT`: `gone_do_not_run`.

A system call is one event, from `SYSCALL` to `SYSRET`; a call that gives up the CPU is cut
where the scheduler runs. Processes are numbered for good; `wait4` makes a zombie `dead`.
-/

namespace Kurios.Signal

open Base Sched Function Option List

variable {cpu : CpuHistory}

/-! ### Processes -/

/-- `process_state_t`. -/
inductive ProcState where
  | unused
  | embryo
  | ready
  | running
  | blocked
  | stopped
  | zombie
  | dead
deriving DecidableEq, Repr

/-- `sig_default_action_t`. -/
inductive DefaultAction where
  | term
  | core
  | stop
  | cont
  | ign
deriving DecidableEq, Repr

/-- `signal_default_action`. -/
def signalDefaultAction (signum : Nat) : DefaultAction :=
  if signum = 0 ∨ nsig ≤ signum then .ign
  else if signum ∈ [3, 4, 5, 6, 7, 8, 11, 24, 25, 31] then .core
  else if signum ∈ [17, 23, 28] then .ign
  else if signum = sigcont then .cont
  else if signum ∈ [sigstop, sigtstp, sigttin, sigttou] then .stop
  else .term

structure Jobs where
  cpu : CpuHistory
  state : Nat → ProcState
  signals : Nat → SignalState
  parent : Nat → Nat
  mainThread : Nat → Option Nat
  halted : Bool

namespace Jobs

variable (j : Jobs)

def setState (p : Nat) (state : ProcState) : Jobs :=
  { j with state := update j.state p state }

def setSignals (p : Nat) (s : SignalState) : Jobs :=
  { j with signals := update j.signals p s }

def addPending (p signum : Nat) : Jobs :=
  j.setSignals p { j.signals p with pending := sigaddset (j.signals p).pending signum }

/-- `signal_send_sigchld` and `signal_send_sigchld_continued`, and with `stopped`
`signal_send_sigchld_stopped`. A parent that has been reaped is not found. -/
def sendSigchld (p : Nat) (stopped : Bool) : Jobs :=
  let parent := j.parent p
  let action := (j.signals parent).actions sigchld
  if parent = p ∨ j.state parent = .dead then j
  else if stopped ∧ action.flags &&& 1 ≠ 0 then j
  else if action.handler ≠ sigIgn then j.addPending parent sigchld
  else j

def processExit (p : Nat) : Jobs := (j.setState p .zombie).sendSigchld p false

def processStop (p : Nat) : Jobs :=
  if j.state p = .zombie ∨ j.state p = .dead then j else j.setState p .stopped

/-- `process_continue`, of a process that is stopped. -/
def processContinue (p : Nat) : Jobs :=
  let j := j.setState p .ready
  match j.mainThread p with
  | some t => { j with cpu := { j.cpu with sched := threadUnblock j.cpu.sched t } }
  | none => j

/-- `signal_send` to a process that exists. -/
def signalSend (p signum : Nat) : Jobs :=
  if signum = 0 ∨ nsig ≤ signum ∨ j.state p = .zombie ∨ j.state p = .dead then j else
  let j := j.addPending p signum
  if signum = sigcont ∧ j.state p = .stopped then
    let j := j.processContinue p
    let s := j.signals p
    let pending := [sigstop, sigtstp, sigttin, sigttou].foldl sigdelset s.pending
    (j.setSignals p { s with pending := pending }).sendSigchld p false
  else j

/-- `handle_default_signal`. -/
def handleDefaultSignal (p signum : Nat) : Jobs :=
  match signalDefaultAction signum with
  | .term | .core => j.processExit p
  | .stop => (j.processStop p).sendSigchld p true
  | .cont => if j.state p = .stopped then (j.processContinue p).sendSigchld p false else j
  | .ign => j

/-- `signal_deliver_pending` for `process_current()`, when the call's frame and the user's
memory are these. -/
def deliverPending (regs : Frame) (mem : Buffer) : Jobs :=
  let p := j.cpu.currentProcess
  let (t, delivery) := signalDeliverPending ⟨regs, mem, j.signals p⟩
  let j := j.setSignals p t.signals
  match delivery with
  | .default signum => j.handleDefaultSignal p signum
  | .none | .handler _ => j

/-! ### Events -/

/-- What a system call does before signals are delivered. `masks` is `sigaction` or
`sigprocmask` and stores anything, `wait` reaps a zombie. -/
inductive Call where
  | kill (targets : List Nat) (signum : Nat)
  | masks (blocked : Word) (actions : Nat → Sigaction)
  | fork (child : Option (Nat × Nat × Nat))
  | execve (cr3 : Option Nat)
  | wait (child : Nat)
  | other

/-- The running thread executes a user instruction or a system call, or gets a page fault that
is not resolved; `sched` and `enter` are the scheduler and `fork_child_entry`. -/
inductive JobEvent where
  | user
  | call (c : Call) (regs : Frame) (mem : Buffer)
  | sigreturn (blocked : Word)
  | fault
  | enter
  | sched (c : SchedCall)

/-- A new process of `sys_fork_impl`. -/
def addChild (child thread : Nat) (cpu : CpuHistory) : Jobs :=
  { j with
    cpu := cpu
    state := update j.state child .ready
    signals := update j.signals child signalStateInit
    parent := update j.parent child j.cpu.currentProcess
    mainThread := update j.mainThread child (some thread) }

def perform : Call → Option Jobs
  | .kill targets signum => some (targets.foldl (fun j p => j.signalSend p signum) j)
  | .masks blocked actions =>
    let p := j.cpu.currentProcess
    some (j.setSignals p { j.signals p with blocked := blocked, actions := actions })
  | .fork none => some j
  | .fork (some (child, thread, cr3)) =>
    (j.cpu.step (.fork (some (child, thread, cr3)))).map (j.addChild child thread)
  | .execve cr3 => (j.cpu.step (.execve cr3)).map fun cpu => { j with cpu := cpu }
  | .wait child => if j.state child = .zombie then some (j.setState child .dead) else none
  | .other => some j

def step (e : JobEvent) : Option Jobs :=
  if j.halted then none else
  match e with
  | .user => if j.cpu.InUser then some j else none
  | .call c regs mem =>
    if j.cpu.InUser then (j.perform c).map fun j => j.deliverPending regs mem else none
  | .sigreturn blocked =>
    let p := j.cpu.currentProcess
    if j.cpu.InUser then some (j.setSignals p { j.signals p with blocked := blocked }) else none
  | .fault =>
    if j.cpu.InUser then some { j.processExit j.cpu.currentProcess with halted := true } else none
  | .enter => (j.cpu.step .enter).map fun cpu => { j with cpu := cpu }
  | .sched c => (j.cpu.step (.sched c)).map fun cpu => { j with cpu := cpu }

/-- The first process has just entered user mode. It has no `main_thread`. -/
def start (sched : SchedState) (init cr3 : Nat) : Jobs where
  cpu := CpuHistory.start sched init cr3
  state := fun _ => .ready
  signals := fun _ => signalStateInit
  parent := fun _ => 0
  mainThread := fun _ => none
  halted := false

/-! ### Processes that must not run -/

/-- Terminated or stopped. -/
def Gone (p : Nat) : Prop :=
  j.state p = .stopped ∨ j.state p = .zombie ∨ j.state p = .dead
deriving Decidable

/-- All threads of the process are blocked. -/
def AllBlocked (p : Nat) : Prop :=
  ∀ t ∈ j.cpu.sched.threads, j.cpu.threadProc t = some p →
    j.cpu.sched.stateOf t = .blocked ∧ j.cpu.sched.current ≠ t
deriving Decidable

/-- The signal whose default action is taken at the end of a call. -/
def defaultSignal (regs : Frame) (mem : Buffer) : Option Nat :=
  match (signalDeliverPending ⟨regs, mem, j.signals j.cpu.currentProcess⟩).2 with
  | .default signum => some signum
  | .none | .handler _ => none

/-- A signal terminates or stops only processes whose threads are blocked. -/
abbrev CarefulDelivery (j : Jobs) (regs : Frame) (mem : Buffer) : Prop :=
  ∀ signum ∈ j.defaultSignal regs mem,
    signalDefaultAction signum ≠ .cont → signalDefaultAction signum ≠ .ign →
      j.AllBlocked j.cpu.currentProcess

/-- `CarefulDelivery`, and threads of processes that are gone are not unblocked by others than
`SIGCONT`. -/
def Careful : JobEvent → Prop
  | .call c regs mem => (j.perform c).all (fun j => j.CarefulDelivery regs mem) = true
  | .sched (.unblock t) => (j.cpu.threadProc t).all (fun p => ¬ j.Gone p) = true
  | .user | .sigreturn _ | .fault | .enter => True
  | .sched (.create _) | .sched .reschedule | .sched (.sleep ..) | .sched .block | .sched .exit
  | .sched .tick => True

instance (j : Jobs) (e : JobEvent) : Decidable (j.Careful e) := by
  unfold Careful
  split <;> infer_instance

/-! ### One step -/

/-- The threads of processes that are gone are blocked. -/
structure Quiet (j : Jobs) : Prop where
  known : ∀ t p, j.cpu.threadProc t = some p → t ∈ j.cpu.sched.threads
  procs : ∀ t p, j.cpu.threadProc t = some p → p ∈ j.cpu.procs
  idle : j.cpu.threadProc j.cpu.sched.idle = none
  idleKnown : j.cpu.sched.idle ∈ j.cpu.sched.threads
  main : ∀ p t, j.mainThread p = some t → j.cpu.threadProc t = some p
  parked : ∀ p, j.Gone p → ∀ t, j.cpu.threadProc t = some p → Parked j.cpu.sched t

section Steps

variable {j j' : Jobs} {p : Nat}

theorem Quiet.setSignals (h : j.Quiet) (p : Nat) (s : SignalState) : (j.setSignals p s).Quiet :=
  { h with }

theorem Quiet.sendSigchld (h : j.Quiet) (p : Nat) (stopped : Bool) :
    (j.sendSigchld p stopped).Quiet := by
  unfold Jobs.sendSigchld
  dsimp only
  split
  · exact h
  split
  · exact h
  split
  · exact h.setSignals _ _
  · exact h

variable {state : ProcState}

theorem gone_setState_of_ne {q} (hq : q ≠ p) (h : (j.setState p state).Gone q) : j.Gone q := by
  unfold Jobs.Gone Jobs.setState at h
  dsimp only at h
  rwa [update_of_ne hq] at h

/-- A process whose threads are blocked may be stopped or terminated. -/
theorem Quiet.setState (h : j.Quiet)
    (hstate : (j.setState p state).Gone p → ∀ t, j.cpu.threadProc t = some p →
      Parked j.cpu.sched t) :
    (j.setState p state).Quiet := by
  refine { h with parked := fun q hq t ht => ?_ }
  by_cases hqp : q = p
  · subst hqp
    exact hstate hq t ht
  · exact h.parked q (gone_setState_of_ne hqp hq) t ht

theorem Quiet.allBlocked (h : j.Quiet) (hblk : j.AllBlocked p) {t}
    (ht : j.cpu.threadProc t = some p) : Parked j.cpu.sched t := by
  obtain ⟨hstate, hcur⟩ := hblk t (h.known t p ht) ht
  refine ⟨hstate, hcur, fun hidle => ?_⟩
  rw [← hidle, h.idle] at ht
  cases ht

theorem not_gone_setState_ready : ¬ (j.setState p .ready).Gone p := by
  unfold Jobs.Gone Jobs.setState
  dsimp only
  rw [update_self]
  rintro (h | h | h) <;> cases h

section

variable (h : j.Quiet)
include h

/-- Continuing a process unblocks its own thread. -/
theorem Quiet.processContinue (p : Nat) : (j.processContinue p).Quiet := by
  have hready : (j.setState p .ready).Quiet :=
    h.setState fun hgone => absurd hgone not_gone_setState_ready
  unfold Jobs.processContinue
  dsimp only
  split
  case h_2 => exact hready
  case h_1 t hmain =>
  have hsame := threadUnblock_table j.cpu.sched t
  have howner := h.main p t hmain
  refine ⟨?_, h.procs, ?_, ?_, h.main, fun q hq t' ht' => ?_⟩
  · intro t' q ht'
    show t' ∈ (threadUnblock j.cpu.sched t).threads
    rw [hsame.threads]
    exact h.known t' q ht'
  · show j.cpu.threadProc (threadUnblock j.cpu.sched t).idle = none
    rw [hsame.idle]
    exact h.idle
  · show (threadUnblock j.cpu.sched t).idle ∈ (threadUnblock j.cpu.sched t).threads
    rw [hsame.idle, hsame.threads]
    exact h.idleKnown
  have hne : t ≠ t' := by
    rintro rfl
    have hqp : q = p := some.inj (ht'.symm.trans howner)
    subst hqp
    exact not_gone_setState_ready hq
  exact (hready.parked q hq t' ht').unblock hne

theorem Quiet.signalSend (p signum : Nat) : (j.signalSend p signum).Quiet := by
  have hadd : (j.addPending p signum).Quiet := h.setSignals _ _
  unfold Jobs.signalSend
  split
  · exact h
  dsimp only
  split
  · exact ((hadd.processContinue p).setSignals _ _).sendSigchld p false
  · exact hadd

theorem Quiet.kill (targets : List Nat) (signum : Nat) :
    (targets.foldl (fun j p => j.signalSend p signum) j).Quiet := by
  induction targets generalizing j with
  | nil => exact h
  | cons p targets ih => exact ih (h.signalSend p signum)

theorem Quiet.handleDefaultSignal {signum}
    (hblk : signalDefaultAction signum ≠ .cont → signalDefaultAction signum ≠ .ign →
      j.AllBlocked p) : (j.handleDefaultSignal p signum).Quiet := by
  have hsettle : ∀ {a} state, signalDefaultAction signum = a → a ≠ .cont → a ≠ .ign →
      (j.setState p state).Quiet := by
    rintro _ state rfl hcont hign
    exact h.setState fun _ t => h.allBlocked (hblk hcont hign)
  unfold Jobs.handleDefaultSignal
  split
  case h_1 hterm => exact (hsettle .zombie hterm (by decide) (by decide)).sendSigchld p false
  case h_2 hcore => exact (hsettle .zombie hcore (by decide) (by decide)).sendSigchld p false
  case h_3 hstop =>
    apply Quiet.sendSigchld
    unfold processStop
    split
    · exact h
    · exact hsettle .stopped hstop (by decide) (by decide)
  · split
    · exact (h.processContinue p).sendSigchld p false
    · exact h
  · exact h

theorem Quiet.deliverPending {regs mem} (hcare : j.CarefulDelivery regs mem) :
    (j.deliverPending regs mem).Quiet := by
  unfold Jobs.deliverPending
  dsimp only
  split
  case h_1 signum hdefault =>
    apply (h.setSignals _ _).handleDefaultSignal
    have hsignal : j.defaultSignal regs mem = some signum := by
      unfold defaultSignal
      rw [hdefault]
    exact hcare signum hsignal
  · exact h.setSignals _ _
  · exact h.setSignals _ _

theorem Quiet.addChild {child thread cr3}
    (hfork : j.cpu.step (.fork (some (child, thread, cr3))) = some cpu) :
    (j.addChild child thread cpu).Quiet := by
  obtain ⟨⟨-, hchild, hthread, -⟩, rfl⟩ := ite_eq_some hfork
  have hroles : (threadCreate j.cpu.sched thread).threads = thread :: j.cpu.sched.threads ∧
      (threadCreate j.cpu.sched thread).idle = j.cpu.sched.idle := by
    rw [threadCreate_eq]
    exact ⟨(roles_queueAdd _ thread).threads, (roles_queueAdd _ thread).idle⟩
  -- A thread of a process is the new one, or it was in the table.
  constructor
  case known =>
    intro t q ht
    show t ∈ (threadCreate j.cpu.sched thread).threads
    rw [hroles.1]
    rcases update_cases ht with ⟨rfl, -⟩ | ⟨-, ht⟩
    · exact mem_cons_self
    · exact mem_cons_of_mem thread (h.known t q ht)
  case procs =>
    intro t q ht
    rcases update_cases ht with ⟨-, ⟨⟩⟩ | ⟨-, ht⟩
    · exact mem_cons_self
    · exact mem_cons_of_mem child (h.procs t q ht)
  case idle =>
    have hne : j.cpu.sched.idle ≠ thread := fun heq => hthread (heq ▸ h.idleKnown)
    show update j.cpu.threadProc thread (some child) (threadCreate _ thread).idle = none
    rw [hroles.2, update_of_ne hne]
    exact h.idle
  case idleKnown =>
    show (threadCreate j.cpu.sched thread).idle ∈ (threadCreate j.cpu.sched thread).threads
    rw [hroles.1, hroles.2]
    exact mem_cons_of_mem thread h.idleKnown
  case main =>
    intro q t hmain
    show update j.cpu.threadProc thread (some child) t = some q
    rcases update_cases hmain with ⟨rfl, ⟨⟩⟩ | ⟨-, hmain⟩
    · rw [update_self]
    have howner := h.main q t hmain
    have hne : t ≠ thread := fun heq => hthread (heq ▸ h.known t q howner)
    rw [update_of_ne hne, howner]
  case parked =>
  intro q hgone t ht
  rcases update_cases ht with ⟨-, ⟨⟩⟩ | ⟨hne, ht⟩
  · exact absurd hgone not_gone_setState_ready
  · have hq : q ≠ child := fun heq => hchild (heq ▸ h.procs t q ht)
    exact (h.parked q (gone_setState_of_ne hq hgone) t ht).create hne.symm

theorem Quiet.withCpu (hsched : cpu.sched = j.cpu.sched)
    (hthreads : cpu.threadProc = j.cpu.threadProc) (hprocs : cpu.procs = j.cpu.procs) :
    Quiet { j with cpu := cpu } := by
  cases cpu
  cases hsched
  cases hthreads
  cases hprocs
  exact { h with }

theorem Quiet.perform {c} (hperf : j.perform c = some j') : j'.Quiet := by
  cases c with
  | kill targets signum => exact some.inj hperf ▸ h.kill targets signum
  | masks blocked actions => exact some.inj hperf ▸ h.setSignals _ _
  | fork child =>
    cases child with
    | none => exact some.inj hperf ▸ h
    | some child =>
      obtain ⟨cpu, hfork, rfl⟩ := map_eq_some_iff.mp hperf
      exact h.addChild hfork
  | execve cr3 =>
    obtain ⟨cpu, hexec, rfl⟩ := map_eq_some_iff.mp hperf
    cases cr3 with
    | none | some =>
      obtain ⟨-, rfl⟩ := ite_eq_some hexec
      exact h.withCpu rfl rfl rfl
  | wait child =>
    obtain ⟨hzombie, rfl⟩ := ite_eq_some hperf
    exact h.setState fun _ => h.parked child (.inr (.inl hzombie))
  | other => exact some.inj hperf ▸ h

/-- The scheduler runs. -/
theorem Quiet.sched {c} (hcare : j.Careful (.sched c))
    (hstep : j.cpu.step (.sched c) = some cpu) : Quiet { j with cpu := cpu } := by
  obtain ⟨hallow, s, hs, rfl⟩ := ite_map_eq_some hstep
  have hknown : ∀ {t}, t ∈ j.cpu.sched.threads → t ∈ s.threads := mem_threads_of_step hs
  have hidle : s.idle = j.cpu.sched.idle := by
    rcases step_table hs with hsame | ⟨-, -, hsame⟩
    · exact hsame.idle
    · exact hsame
  constructor
  case known => exact fun t p ht => hknown (h.known t p ht)
  case procs => exact h.procs
  case idle =>
    show j.cpu.threadProc s.idle = none
    rw [hidle]
    exact h.idle
  case idleKnown =>
    show s.idle ∈ s.threads
    rw [hidle]
    exact hknown h.idleKnown
  case main => exact h.main
  case parked =>
  intro p hgone t ht
  have hc : c ≠ .unblock t := by
    rintro rfl
    have hall : (j.cpu.threadProc t).all (fun p => ¬ j.Gone p) = true := hcare
    have howner : j.cpu.threadProc t = some p := ht
    rw [howner] at hall
    exact of_decide_eq_true hall hgone
  exact (h.parked p hgone t ht).step (h.known t p ht) hallow hc hs

theorem Quiet.step {e} (hcare : j.Careful e) (hstep : j.step e = some j') :
    j'.halted = true ∨ j'.Quiet := by
  unfold Jobs.step at hstep
  split at hstep
  · cases hstep
  cases e with
  | user =>
    obtain ⟨-, rfl⟩ := ite_eq_some hstep
    exact .inr h
  | call c regs mem =>
    obtain ⟨-, j1, hperf, rfl⟩ := ite_map_eq_some hstep
    have hdel : (j.perform c).all (fun j => j.CarefulDelivery regs mem) = true := hcare
    rw [hperf] at hdel
    exact .inr ((h.perform hperf).deliverPending (of_decide_eq_true hdel))
  | sigreturn blocked =>
    obtain ⟨-, rfl⟩ := ite_eq_some hstep
    exact .inr (h.setSignals _ _)
  | fault =>
    obtain ⟨-, rfl⟩ := ite_eq_some hstep
    exact .inl rfl
  | enter =>
    obtain ⟨cpu, henter, rfl⟩ := map_eq_some_iff.mp hstep
    obtain ⟨p, -, rfl⟩ := map_eq_some_iff.mp henter
    right
    unfold CpuHistory.enter
    dsimp only
    split <;> exact h.withCpu rfl rfl rfl
  | sched c =>
    obtain ⟨cpu, hsched, rfl⟩ := map_eq_some_iff.mp hstep
    exact .inr (h.sched hcare hsched)

end

end Steps

/-! ### Runs -/

/-- In every run in which signals terminate or stop processes only while their threads are blocked,
and only `SIGCONT` unblocks these: as long as the system is not halted, the running thread is not
one of a process that has been terminated or is stopped. -/
theorem gone_do_not_run {sched : SchedState} (hcurrent : sched.current ∈ sched.threads)
    (hidle : sched.idle ∈ sched.threads) (hne : sched.idle ≠ sched.current) {init cr3 : Nat}
    {es : List JobEvent} {j : Jobs}
    (hrun : GuardedRun Jobs.step Jobs.Careful (Jobs.start sched init cr3) es j)
    (hhalted : j.halted = false) : ∀ p, j.cpu.threadProc j.cpu.sched.current = some p →
      j.state p ≠ .zombie ∧ j.state p ≠ .dead ∧ j.state p ≠ .stopped := by
  have hstart : (Jobs.start sched init cr3).Quiet := by
    constructor
    case known =>
      intro t p ht
      obtain ⟨rfl, -⟩ := ite_eq_some ht
      exact hcurrent
    case procs =>
      intro t p ht
      obtain ⟨-, rfl⟩ := ite_eq_some ht
      exact mem_singleton_self _
    case idle => exact if_neg hne
    case idleKnown => exact hidle
    case main => exact fun p t hmain => (nomatch hmain)
    case parked => rintro p (hgone | hgone | hgone) <;> cases hgone
  have hend : j.halted = true ∨ j.Quiet := hrun.inv (fun j => j.halted = true ∨ j.Quiet)
    (fun j e j' h hcareful hstep => by
      rcases h with hhalted | h
      · unfold Jobs.step at hstep
        rw [if_pos hhalted] at hstep
        cases hstep
      · exact h.step hcareful hstep) (.inr hstart)
  have hquiet : j.Quiet := hend.resolve_left (by simp [hhalted])
  intro p hp
  have hgone : ¬ j.Gone p := fun hgone => (hquiet.parked p hgone _ hp).current rfl
  exact ⟨fun hz => hgone (.inr (.inl hz)), fun hd => hgone (.inr (.inr hd)),
    fun hs => hgone (.inl hs)⟩

/-- Init, process 5, forks process 7 and yields. The child enters user mode and blocks on a
semaphore; init kills it, which is done at the end of the call since `process_current()` is the
child, and goes on. -/
def killBlocked (regs : Frame) : List JobEvent :=
  [.call (.fork (some (7, 2, 0x9000))) regs fun _ => 0, .sched .reschedule, .enter, .enter,
    .sched .block, .call (.kill [7] 9) regs fun _ => 0, .user]

def someRegs : Frame := Frame.ofWords []

theorem gone_do_not_run_killBlocked : ∃ s j, threadInit 0 1 = some s ∧
      GuardedRun Jobs.step Jobs.Careful (Jobs.start (schedStart s) 5 0x8000) (killBlocked someRegs)
        j ∧ j.state 7 = .zombie ∧ ∀ p, j.cpu.threadProc j.cpu.sched.current = some p →
        j.state p ≠ .zombie := by
  obtain ⟨s, hinit, ⟨hcurrent, hidle, hne⟩, j, hrun, hhalted, hzombie⟩ : ∃ s,
      threadInit 0 1 = some s ∧ ((schedStart s).current ∈ (schedStart s).threads ∧
        (schedStart s).idle ∈ (schedStart s).threads ∧
        (schedStart s).idle ≠ (schedStart s).current) ∧ ∃ j, GuardedRun Jobs.step Jobs.Careful
          (Jobs.start (schedStart s) 5 0x8000) (killBlocked someRegs) j ∧ j.halted = false ∧
            j.state 7 = .zombie := by
    decide +kernel
  exact ⟨s, j, hinit, hrun, hzombie, fun p hp =>
    (gone_do_not_run hcurrent hidle hne hrun hhalted p hp).1⟩

/-- Init kills or stops itself and goes on in user mode. -/
theorem killed_runs_on :
    ((threadInit 0 1).any fun s => (run Jobs.step (Jobs.start (schedStart s) 5 0x8000)
      [.call (.kill [5] 9) someRegs fun _ => 0, .user]).any fun j =>
        decide (j.cpu.InUser ∧ j.cpu.threadProc j.cpu.sched.current = some 5 ∧
          j.state 5 = .zombie)) = true ∧
    ((threadInit 0 1).any fun s => (run Jobs.step (Jobs.start (schedStart s) 5 0x8000)
      [.call (.kill [5] 19) someRegs fun _ => 0, .user]).any fun j =>
        decide (j.cpu.InUser ∧ j.cpu.threadProc j.cpu.sched.current = some 5 ∧
          j.state 5 = .stopped)) = true := by
  decide +kernel

end Jobs

end Kurios.Signal
