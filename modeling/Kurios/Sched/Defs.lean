import Kurios.Base.DList
import Kurios.Base.Loop
import Kurios.Base.Word

/-!
The scheduler of `kernel/sched/sched.c` and the thread states of `kernel/sched/thread.c`
on one CPU, before the other CPUs are started.

Threads are addresses; `threads` are those in `thread_table`. Blocked and sleeping
threads stay linked in the ready queue, which is walked by `wake_sleeping_threads_locked`,
`pick_next_locked` and `queue_contains_locked`. A walk that does not reach the end of the
queue within as many nodes as there are threads does not reach it at all, and the call
does not return: that is `none`. Locks, names, priorities and statistics are left out,
and so is `sched_balance_load`, which does nothing on one CPU.
-/

namespace Kurios.Sched

open Base

inductive ThreadState where
  | ready
  | running
  | blocked
  | sleeping
  | terminated
deriving DecidableEq, Repr

/-- `thread_t`, as far as the scheduler reads it. -/
structure Thread where
  state : ThreadState
  wakeTime : Nat
  cpuMask : Nat
  next : Option Nat
  prev : Option Nat
deriving DecidableEq, Repr

structure SchedState where
  thread : Nat → Thread
  threads : List Nat
  head : Option Nat
  tail : Option Nat
  current : Nat
  idle : Nat
  slice : Nat
  ticks : Nat
  running : Bool

/-- `TIME_SLICE_TICKS`. -/
def timeSliceTicks : Nat := 10

variable (s : SchedState)

namespace SchedState

def next (t : Nat) : Option Nat := (s.thread t).next
def prev (t : Nat) : Option Nat := (s.thread t).prev
def stateOf (t : Nat) : ThreadState := (s.thread t).state

def modify (t : Nat) (f : Thread → Thread) : SchedState :=
  { s with thread := Function.update s.thread t (f (s.thread t)) }

def setState (t : Nat) (state : ThreadState) : SchedState :=
  s.modify t fun th => { th with state := state }

def setNext (t : Nat) (next : Option Nat) : SchedState :=
  s.modify t fun th => { th with next := next }

def setPrev (t : Nat) (prev : Option Nat) : SchedState :=
  s.modify t fun th => { th with prev := prev }

end SchedState

/-! ### The ready queue -/

section

variable (t : Nat)

/-- `queue_add_locked`. -/
def queueAdd : SchedState :=
  let tail := s.tail
  let s := s.modify t fun th => { th with state := .ready, next := none, prev := tail }
  match tail with
  | none => { s with head := some t, tail := some t }
  | some last => { s.setNext last (some t) with tail := some t }

/-- `queue_contains_locked`. -/
def queueContains : Option Bool :=
  walk s.next (fun x => if x = t then some true else none) false s.threads.length s.head

/-- `thread->prev->next = thread->next`, or the same for the head of the queue. -/
def unlinkBefore : SchedState :=
  match s.prev t with
  | some before => s.setNext before (s.next t)
  | none => { s with head := s.next t }

/-- `thread->next->prev = thread->prev`, or the same for the tail of the queue. -/
def unlinkAfter : SchedState :=
  match s.next t with
  | some after => s.setPrev after (s.prev t)
  | none => { s with tail := s.prev t }

/-- The assignments of `queue_remove_locked`. -/
def unlink : SchedState :=
  ((unlinkAfter (unlinkBefore s t) t).setNext t none).setPrev t none

/-- `queue_remove_locked`. -/
def queueRemove : Option SchedState :=
  (queueContains s t).map fun found => if found then unlink s t else s

/-- `sched_ready`. -/
def schedReady : SchedState :=
  if s.stateOf t = .terminated then s else queueAdd s t

end

/-! ### Picking a thread -/

/-- The loop of `wake_sleeping_threads_locked` from `curr` on. -/
def wakeFrom (now : Nat) : (fuel : Nat) → (curr : Option Nat) → SchedState → Option SchedState
  | _, none, s => some s
  | 0, some _, _ => none
  | n + 1, some t, s =>
    let s :=
      if s.stateOf t = .sleeping ∧ (s.thread t).wakeTime ≤ now then s.setState t .ready else s
    wakeFrom now n (s.next t) s

/-- `wake_sleeping_threads_locked(pit_get_ticks())`. -/
def wakeSleepingThreads : Option SchedState :=
  wakeFrom s.ticks s.threads.length s.head s

/-- The scan of `pick_next_locked`: the first ready thread allowed on CPU 0. -/
def findReady : Option (Option Nat) :=
  walk s.next (fun t => if s.stateOf t = .ready ∧ (s.thread t).cpuMask % 2 = 1 then some (some t)
    else none) none s.threads.length s.head

/-- `pick_next_locked`. -/
def pickNext : Option (Nat × SchedState) :=
  (wakeSleepingThreads s).bind fun s => (findReady s).map fun found => (found.getD s.idle, s)

/-- What `sched_reschedule` does with the thread it switches away from: it goes to the end
of the queue and keeps its state, unless it has exited. There is no branch for a thread
that is already `THREAD_READY`. -/
def putBack (t : Nat) : SchedState :=
  match s.stateOf t with
  | .running => queueAdd s t
  | .sleeping => (queueAdd s t).setState t .sleeping
  | .blocked => (queueAdd s t).setState t .blocked
  | .terminated => s
  | .ready => s

/-- The part of `sched_reschedule` after the choice of the next thread. -/
def switchTo (next : Nat) : Option SchedState :=
  if next = s.current then
    some (if s.stateOf s.current ≠ .running then s.setState s.current .running else s)
  else
    (queueRemove (putBack s s.current) next).map fun s =>
      { s.setState next .running with current := next, slice := timeSliceTicks }

/-- `sched_reschedule`. Afterwards `current` runs. -/
def schedReschedule : Option SchedState :=
  (pickNext s).bind fun (next, s) => switchTo s next

/-! ### Threads -/

/-- A tick of the timer, and `sched_tick`. -/
def schedTick : Option SchedState :=
  let s := { s with ticks := u64 (s.ticks + 1) }
  if !s.running then some s else
  let s := { s with slice := s.slice - 1 }
  (wakeSleepingThreads s).bind fun s =>
  if s.slice = 0 ∧ s.stateOf s.current = .running then
    schedReschedule { s with slice := timeSliceTicks }
  else some s

/-- What `thread_create` writes into a new `thread_t`. -/
def newThread : Thread :=
  { state := .ready, wakeTime := 0, cpuMask := 0xFFFFFFFF, next := none, prev := none }

/-- `thread_create`, when the allocations succeed and give the address `t`. -/
def threadCreate (t : Nat) : SchedState :=
  schedReady { s with thread := Function.update s.thread t newThread, threads := t :: s.threads } t

/-- `thread_sleep_ms`, with `freq` from `pit_get_frequency`. -/
def threadSleepMs (ms freq : Nat) : Option SchedState :=
  if ms = 0 ∨ freq = 0 then some s else
  schedReschedule (s.modify s.current fun th =>
    { th with state := .sleeping, wakeTime := u64 (s.ticks + u64 (ms * freq) / 1000) })

/-- `thread_block`. -/
def threadBlock : Option SchedState :=
  schedReschedule (s.setState s.current .blocked)

/-- `thread_exit`. -/
def threadExit : Option SchedState :=
  schedReschedule (s.setState s.current .terminated)

/-- `thread_unblock`. -/
def threadUnblock (t : Nat) : SchedState :=
  if s.stateOf t = .blocked then schedReady (s.setState t .ready) t else s

/-- `thread_init`: the boot thread runs, and the idle thread is created and taken out of
the queue again. -/
def threadInit (boot idle : Nat) : Option SchedState :=
  let s : SchedState :=
    { thread := fun _ => { newThread with state := .running }
      threads := [boot]
      head := none
      tail := none
      current := boot
      idle := idle
      slice := timeSliceTicks
      ticks := 0
      running := false }
  (queueRemove (threadCreate s idle) idle).map fun s => s.setState idle .ready

/-- `sched_start`. -/
def schedStart : SchedState :=
  { s with running := true, slice := timeSliceTicks }

/-! ### Calls -/

/-- What threads and the timer do to the scheduler. -/
inductive SchedCall where
  | create (t : Nat)
  | reschedule
  | sleep (ms freq : Nat)
  | block
  | unblock (t : Nat)
  | exit
  | tick
deriving DecidableEq

/-- A call that returns, to whichever thread runs afterwards. -/
def SchedState.step : SchedCall → Option SchedState
  | .create t => some (threadCreate s t)
  | .reschedule => schedReschedule s
  | .sleep ms freq => threadSleepMs s ms freq
  | .block => threadBlock s
  | .unblock t => some (threadUnblock s t)
  | .exit => threadExit s
  | .tick => schedTick s

/-- The calls that can occur: a new thread gets memory of its own, there is no other
thread to be unblocked than the existing ones, and the idle thread does nothing but wait
for interrupts. -/
def SchedCall.Allowed : SchedCall → Prop
  | .create t => t ∉ s.threads
  | .sleep _ _ => s.current ≠ s.idle
  | .block => s.current ≠ s.idle
  | .exit => s.current ≠ s.idle
  | .unblock t => t ∈ s.threads
  | .reschedule => True
  | .tick => True

instance (s : SchedState) (c : SchedCall) : Decidable (c.Allowed s) := by
  cases c <;> unfold SchedCall.Allowed <;> infer_instance

end Kurios.Sched
