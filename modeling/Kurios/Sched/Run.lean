import Kurios.Sched.Queue

/-!
Histories of the scheduler on one CPU.

Threads create, block, sleep, unblock and exit, and the timer ticks, in any order.
`ready_queue` says that the ready queue stays a list of all the threads that wait for
the CPU, as long as nobody unblocks a blocked thread: `thread_unblock` appends the
thread a second time to the queue it is still linked in, and whatever was linked behind
it is lost (`unblock_loses_ready`).
-/

namespace Kurios.Sched

open Base Function Option List

variable {s s' : SchedState} {q q' : List Nat}

/-- The queue describes a list, and the running thread runs. -/
def Settled (s : SchedState) (q : List Nat) : Prop :=
  Queued s q ∧ s.stateOf s.current = .running

/-- No blocked thread is unblocked. -/
def SchedCall.KeepsBlocked (s : SchedState) : SchedCall → Prop
  | .unblock t => s.stateOf t ≠ .blocked
  | _ => True

instance (s : SchedState) (c : SchedCall) : Decidable (c.KeepsBlocked s) := by
  induction c using SchedCall.casesOn <;> unfold SchedCall.KeepsBlocked <;> infer_instance

/-! ### One call -/

/-- A new thread is ready, so it is appended. -/
theorem threadCreate_eq (s : SchedState) (t : Nat) :
    threadCreate s t = queueAdd
      { s with thread := update s.thread t newThread, threads := t :: s.threads } t := by
  have hready : (update s.thread t newThread t).state = .ready := by
    rw [update_self]
    rfl
  unfold threadCreate schedReady SchedState.stateOf
  rw [if_neg (by rw [hready]; decide)]

/-- The time at which a call enters `sched_reschedule`, if it does. -/
def SchedCall.entersAt (s : SchedState) : SchedCall → Option Nat
  | .create _ | .unblock _ => none
  | .reschedule | .block | .exit => some s.ticks
  | .sleep ms freq => if ms = 0 ∨ freq = 0 then none else some s.ticks
  | .tick =>
    if s.running ∧ s.slice ≤ 1 ∧ s.stateOf s.current = .running then some (u64 (s.ticks + 1))
    else none

/-- A call that does not switch and links new threads only. -/
theorem Spares.stay (hcur : s'.current = s.current) (hidle : s'.idle = s.idle)
    (hlinks : ∀ t ∈ q', t ∈ s.threads → t ∈ q) : Spares s q none s' q' :=
  ⟨hidle, fun t ht hold => mem_append_left _ (hlinks t ht hold), fun _ => hcur, by simp⟩

/-- The same call from a state that differs in the running thread. -/
theorem Spares.of_roles {s1 now} (h : Spares s1 q (some now) s' q') (hroles : SameRoles s s1)
    (hrun : ∀ t ≠ s.current, s1.Runnable now t ↔ s.Runnable now t) :
    Spares s q (some now) s' q' := by
  refine ⟨h.idle.trans hroles.idle, ?_, by simp, fun n hn hout => ?_⟩
  · rw [← hroles.threads, ← hroles.current]
    exact h.links
  cases hn
  rw [← hroles.idle, h.idles now rfl (hroles.idle ▸ hout)]
  unfold SchedState.Quiet
  rw [hroles.threads, hroles.current, hroles.idle]
  constructor
  · exact fun hq t ht hne hcur hready => hq t ht hne hcur ((hrun t hcur).mpr hready)
  · exact fun hq t ht hne hcur hready => hq t ht hne hcur ((hrun t hcur).mp hready)

namespace Settled

section

variable (h : Settled s q)
include h

theorem create {t} (ht : t ∉ s.threads) : Settled (threadCreate s t) (q ++ [t]) := by
  obtain ⟨hq, hrun⟩ := h
  have hfresh : t ∉ q := fun hmem => ht (hq.known t hmem)
  have hother : ∀ x ∈ s.threads, update s.thread t newThread x = s.thread x := by
    intro x hx
    apply update_of_ne
    rintro rfl
    exact ht hx
  -- the new thread before it is made ready
  let s1 : SchedState := { s with thread := update s.thread t newThread, threads := t :: s.threads }
  have hlinked : Linked s1 q := by
    refine ⟨hq.linked.links.frame ?_ ?_, hq.linked.head, hq.linked.tail⟩
    · exact fun x hx => congrArg Thread.next (hother x (hq.known x hx))
    · exact fun x hx => congrArg Thread.prev (hother x (hq.known x hx))
  have hcr := threadCreate_eq s t
  have hroles := roles_queueAdd s1 t
  have hstate : ∀ x ∈ s.threads, (queueAdd s1 t).stateOf x = s.stateOf x := by
    intro x hx
    rw [stateOf_queueAdd, if_neg]
    · exact congrArg Thread.state (hother x hx)
    · rintro rfl
      exact ht hx
  rw [hcr]
  constructor
  · constructor
    · exact hlinked.queueAdd hfresh
    · intro x hx
      rw [hroles.threads]
      rcases mem_append.mp hx with hold | hnew
      · exact mem_cons_of_mem _ (hq.known x hold)
      · exact mem_singleton.mp hnew ▸ mem_cons_self
    · rw [hroles.threads, hroles.current]
      exact mem_cons_of_mem _ hq.current
    · rw [hroles.threads, hroles.idle]
      exact mem_cons_of_mem _ hq.idle
    · rw [hroles.current]
      intro hmem
      rcases mem_append.mp hmem with hold | hnew
      · exact hq.running hold
      · exact ht (mem_singleton.mp hnew ▸ hq.current)
    rw [hroles.threads, hroles.current, hroles.idle]
    intro x hx hcur hidle hterm
    rcases mem_cons.mp hx with rfl | hold
    · exact mem_append_right _ (mem_singleton.mpr rfl)
    · rw [hstate x hold] at hterm
      exact mem_append_left _ (hq.waiting x hold hcur hidle hterm)
  · rw [hroles.current]
    exact (hstate s.current hq.current).trans hrun

/-- The running thread gives up the CPU, in any state but ready. -/
theorem giveUp (f : Thread → Thread) (hstate : ∀ th, (f th).state ≠ .ready)
    (hidle : s.current ≠ s.idle) :
    ∃ s' q', schedReschedule (s.modify s.current f) = some s' ∧ Settled s' q' ∧
      Spares s q (some s.ticks) s' q' := by
  have hcur : (s.modify s.current f).stateOf s.current ≠ .ready := by
    show (update s.thread s.current _ s.current).state ≠ .ready
    rw [update_self]
    exact hstate _
  obtain ⟨s', q', hs', hqueued, hrun, hspares⟩ :=
    (h.1.modifyCurrent f).reschedule hcur fun he => absurd he hidle
  refine ⟨s', q', hs', ⟨hqueued, hrun⟩, hspares.of_roles ⟨rfl, rfl, rfl⟩ fun t ht => ?_⟩
  have hother : (s.modify s.current f).thread t = s.thread t := update_of_ne ht ..
  rw [SchedState.Runnable, SchedState.stateOf, hother]
  rfl

theorem reschedule :
    ∃ s' q', schedReschedule s = some s' ∧ Settled s' q' ∧ Spares s q (some s.ticks) s' q' := by
  obtain ⟨s', q', hs', hqueued, hrun, hspares⟩ := h.1.reschedule (by rw [h.2]; decide) fun _ => h.2
  exact ⟨s', q', hs', ⟨hqueued, hrun⟩, hspares⟩

/-- Counters of the timer. -/
theorem counters (slice ticks : Nat) : Settled { s with slice := slice, ticks := ticks } q :=
  ⟨h.1.frame (h.1.linked.frame (fun _ _ => rfl) (fun _ _ => rfl) rfl rfl) ⟨rfl, rfl, rfl⟩
    fun _ _ => .inr rfl, h.2⟩

theorem tick : ∃ s' q', schedTick s = some s' ∧ Settled s' q' ∧
    Spares s q (SchedCall.tick.entersAt s) s' q' := by
  have hticked := h.counters (s.slice - 1) (u64 (s.ticks + 1))
  obtain ⟨s1, hs1, hw⟩ := hticked.1.linked.wakeSleepingThreads hticked.1.fuel
  have hcur : s1.stateOf s1.current = .running := by
    rw [hw.roles.current]
    rcases hw.states s.current with hsame | ⟨hmem, -, -⟩
    · exact hsame.trans h.2
    · exact absurd hmem h.1.running
  have hwoken : Settled s1 q := ⟨hticked.1.woken hw, hcur⟩
  unfold SchedCall.entersAt schedTick
  cases hon : s.running with
  | false =>
    refine ⟨_, q, rfl, ?_, .stay rfl rfl fun _ hx _ => hx⟩
    exact hon ▸ h.counters s.slice (u64 (s.ticks + 1))
  | true =>
    rw [hon] at hs1
    simp only [Bool.not_true, Bool.false_eq_true, if_false, hs1, bind_some, hcur, h.2, and_true,
      true_and, hw.timer.2, Nat.sub_eq_zero_iff_le]
    split
    · obtain ⟨s', q', hs', hsettled, hspares⟩ :=
        (hwoken.counters timeSliceTicks s1.ticks).reschedule
      have htime : s1.ticks = u64 (s.ticks + 1) := hw.timer.1
      refine ⟨s', q', hs', hsettled, htime ▸ ?_⟩
      refine hspares.of_roles ⟨hw.roles.1, hw.roles.2, hw.roles.3⟩ fun t _ => ?_
      show s1.Runnable s1.ticks t ↔ s.Runnable s1.ticks t
      rw [htime]
      exact hw.runnable t
    · exact ⟨s1, q, rfl, hwoken, .stay hw.roles.current hw.roles.idle fun _ hx _ => hx⟩

/-- Every call returns and leaves the queue in order. -/
theorem step {c} (hallow : c.Allowed s) (hblk : c.KeepsBlocked s) :
    ∃ s' q', s.step c = some s' ∧ Settled s' q' ∧ Spares s q (c.entersAt s) s' q' := by
  have hstay : Spares s q none s q := .stay rfl rfl fun _ hx _ => hx
  cases c with
  | create t =>
    have hroles := roles_queueAdd
      { s with thread := update s.thread t newThread, threads := t :: s.threads } t
    rw [← threadCreate_eq] at hroles
    refine ⟨_, _, rfl, h.create hallow, .stay hroles.current hroles.idle fun x hx hold => ?_⟩
    refine (mem_append.mp hx).resolve_right fun hnew => hallow ?_
    exact mem_singleton.mp hnew ▸ hold
  | reschedule => exact h.reschedule
  | sleep ms freq =>
    simp only [SchedState.step, threadSleepMs, SchedCall.entersAt]
    split
    · exact ⟨s, q, rfl, h, hstay⟩
    · exact h.giveUp _ (fun _ => by simp) hallow
  | block | exit => exact h.giveUp _ (fun _ => by simp) hallow
  | unblock t =>
    refine ⟨s, q, ?_, h, hstay⟩
    simp [SchedState.step, threadUnblock, if_neg hblk]
  | tick => exact h.tick

end

end Settled

/-! ### Whole histories -/

/-- After `thread_init` nobody waits: the idle thread has been taken out of the queue. -/
theorem threadInit_settled {boot idle} (hne : boot ≠ idle) {s}
    (hinit : threadInit boot idle = some s) : Settled s [] := by
  simp only [threadInit, threadCreate_eq] at hinit
  generalize hboot : SchedState.mk _ [idle, boot] none none _ _ _ _ _ = s1 at hinit
  have hemp : Linked s1 [] := by
    subst hboot
    exact ⟨DList.nil, rfl, rfl⟩
  have hadd : Linked (queueAdd s1 idle) [idle] := hemp.queueAdd not_mem_nil
  have hroles := roles_queueAdd s1 idle
  have hthreads : s1.threads = [idle, boot] := by rw [← hboot]
  obtain ⟨s', hs', hrem, hroles', hstates⟩ := hadd.queueRemove
    (by rw [hroles.threads, hthreads]; simp) idle
  rw [hs', map_some, some.injEq] at hinit
  subst hinit
  have hall := (hroles.trans hroles').setState idle .ready
  rw [erase_cons_head] at hrem
  have hcur : s1.current = boot := by rw [← hboot]
  have hidle : s1.idle = idle := by rw [← hboot]
  refine ⟨⟨hrem.setState _ _, ?_, ?_, ?_, not_mem_nil, ?_⟩, ?_⟩
  · exact fun t ht => absurd ht not_mem_nil
  · rw [hall.threads, hall.current, hthreads, hcur]
    simp
  · rw [hall.threads, hall.idle, hthreads, hidle]
    simp
  · rw [hall.threads, hall.current, hall.idle, hthreads, hcur, hidle]
    intro t ht hboot' hidle'
    simp [hboot', hidle'] at ht
  · rw [hall.current, hcur, SchedState.stateOf_setState, if_neg hne, hstates, stateOf_queueAdd,
      if_neg hne, ← hboot]
    simp [SchedState.stateOf, update_of_ne hne]

/-- The ready queue is the doubly linked list `q`. The running thread is not in it; every
other thread is, once, unless it has exited or is the idle thread. -/
structure ReadyQueue (s : SchedState) (q : List Nat) : Prop where
  links : DList s.next s.prev q
  head : s.head = q.head?
  tail : s.tail = q.getLast?
  running : s.current ∉ q
  waiting : ∀ t ∈ s.threads, t ≠ s.current → t ≠ s.idle → s.stateOf t ≠ .terminated → q.count t = 1

theorem Settled.readyQueue (h : Settled s q) : ReadyQueue s q where
  links := h.1.linked.links
  head := h.1.linked.head
  tail := h.1.linked.tail
  running := h.1.running
  waiting := by
    intro t ht hcur hidle hterm
    exact count_eq_one_of_mem h.1.linked.links.nodup (h.1.waiting t ht hcur hidle hterm)

theorem schedStart_settled {boot idle} (hne : boot ≠ idle) {s}
    (hinit : threadInit boot idle = some s) : Settled (schedStart s) [] := by
  have hboot := threadInit_settled hne hinit
  refine ⟨hboot.1.frame ?_ ⟨rfl, rfl, rfl⟩ fun _ _ => .inr rfl, hboot.2⟩
  exact hboot.1.linked.frame (fun _ _ => rfl) (fun _ _ => rfl) rfl rfl

/-- In every history in which no blocked thread is unblocked, the ready queue is in order,
and every further call of this kind returns. -/
theorem ready_queue {boot idle : Nat} (hne : boot ≠ idle) {s₀ : SchedState}
    (hinit : threadInit boot idle = some s₀) {calls : List SchedCall}
    (hrun : GuardedRun SchedState.step (fun s c => c.Allowed s ∧ c.KeepsBlocked s) (schedStart s₀)
      calls s) :
    (∃ q, ReadyQueue s q) ∧ ∀ c : SchedCall, c.Allowed s → c.KeepsBlocked s →
      (s.step c).isSome := by
  obtain ⟨q, hq⟩ := hrun.inv (fun s => ∃ q, Settled s q) (fun s c s' ⟨q, hq⟩ hguard hstep => by
    obtain ⟨s'', q'', hs'', hq'', -⟩ := hq.step hguard.1 hguard.2
    obtain rfl := some.inj (hs''.symm.trans hstep)
    exact ⟨q'', hq''⟩) ⟨[], schedStart_settled hne hinit⟩
  refine ⟨⟨q, hq.readyQueue⟩, fun c hallowed hblocked => ?_⟩
  obtain ⟨s', q', hs', -⟩ := hq.step hallowed hblocked
  exact isSome_iff_exists.mpr ⟨s', hs'⟩

/-- Two threads are created; the boot thread sleeps for a second, one of the others blocks,
and the timer ticks. -/
def sleepAndBlock : List SchedCall :=
  [.create 2, .create 3, .sleep 1000 100, .tick, .block, .tick, .reschedule, .unblock 3]

theorem ready_queue_sleepAndBlock :
    ∃ s₀ s, threadInit 0 1 = some s₀ ∧
      GuardedRun SchedState.step (fun s c => c.Allowed s ∧ c.KeepsBlocked s) (schedStart s₀)
        sleepAndBlock s ∧ (∃ q, ReadyQueue s q) ∧
      ∀ c : SchedCall, c.Allowed s → c.KeepsBlocked s → (s.step c).isSome := by
  obtain ⟨s₀, hinit, s, hrun, -⟩ : ∃ s₀, threadInit 0 1 = some s₀ ∧ ∃ s,
      GuardedRun SchedState.step (fun s c => c.Allowed s ∧ c.KeepsBlocked s) (schedStart s₀)
        sleepAndBlock s ∧ True := by
    decide +kernel
  exact ⟨s₀, s, hinit, hrun, ready_queue (by decide) hinit hrun⟩

/-- The boot thread blocks while threads 2 and 3 are there, and 3 unblocks it when it is at
the head of the queue: the queue now ends after the boot thread, and thread 2, which is
ready and was behind it, is lost. -/
theorem unblock_loses_ready :
    ∃ s₀ s, threadInit 0 1 = some s₀ ∧
      GuardedRun SchedState.step (fun s c => c.Allowed s) (schedStart s₀)
        [.create 2, .create 3, .block, .reschedule, .unblock 0] s ∧
      s.stateOf 2 = .ready ∧ s.current = 3 ∧ ¬ ∃ q, ReadyQueue s q := by
  obtain ⟨s₀, hinit, s, hrun, hready, hcurrent, hidle, hthreads, hhead, hnext⟩ : ∃ s₀,
      threadInit 0 1 = some s₀ ∧ ∃ s, GuardedRun SchedState.step (fun s c => c.Allowed s)
        (schedStart s₀) [.create 2, .create 3, .block, .reschedule, .unblock 0] s ∧
          s.stateOf 2 = .ready ∧ s.current = 3 ∧ s.idle = 1 ∧ s.threads = [3, 2, 1, 0] ∧
          s.head = some 0 ∧ s.next 0 = none := by
    decide +kernel
  refine ⟨s₀, s, hinit, hrun, hready, hcurrent, ?_⟩
  rintro ⟨q, hq⟩
  have hcount := hq.waiting 2 (by simp [hthreads]) (by simp [hcurrent]) (by simp [hidle])
    (by simp [hready])
  -- the list that starts at the head is the boot thread alone
  cases q with
  | nil => simp at hcount
  | cons x r =>
    have hx : x = 0 := some.inj (hq.head.symm.trans hhead)
    subst hx
    have hneighbours := (DList.neighbours (l := []) hq.links).2
    rw [hnext] at hneighbours
    obtain rfl := List.head?_eq_none_iff.mp hneighbours.symm
    simp at hcount

/-! ### The idle thread -/

/-- While the idle thread runs, `sched_reschedule` is entered only if no other thread can run. -/
def SchedCall.IdleStays (s : SchedState) (c : SchedCall) : Prop :=
  s.current = s.idle → ∀ now ∈ c.entersAt s, s.Quiet now
deriving Decidable

/-- **Idle only when idle.** Where no blocked thread is unblocked and the idle thread is never
preempted, it is not in the ready queue, and a call switches to it only if no other thread
that is allowed on CPU 0 is ready after `sched_reschedule` has woken the sleepers. -/
theorem idle_only_when_idle {boot idle : Nat} (hne : boot ≠ idle) {s₀ : SchedState}
    (hinit : threadInit boot idle = some s₀) {calls : List SchedCall}
    (hrun : GuardedRun SchedState.step
      (fun s c => (c.Allowed s ∧ c.KeepsBlocked s) ∧ c.IdleStays s) (schedStart s₀) calls s) :
    (∃ q, ReadyQueue s q ∧ s.idle ∉ q) ∧
    ∀ (c : SchedCall) (s' : SchedState), c.Allowed s → c.KeepsBlocked s → s.step c = some s' →
      s'.current = s.idle → s.current ≠ s.idle → ∃ now ∈ c.entersAt s, s.Quiet now := by
  obtain ⟨q, hq, hout⟩ := hrun.inv (fun s => ∃ q, Settled s q ∧ s.idle ∉ q)
    (fun s c s' ⟨q, hq, hout⟩ hguard hstep => by
      obtain ⟨s'', q', hs'', hq', hspares⟩ := hq.step hguard.1.1 hguard.1.2
      obtain rfl := some.inj (hs''.symm.trans hstep)
      refine ⟨q', hq', fun hmem => ?_⟩
      -- it was linked before, or it ran and has not been preempted
      rw [hspares.idle] at hmem
      rcases mem_append.mp (hspares.links _ hmem hq.1.idle) with hold | hran
      · exact hout hold
      have hran := (mem_singleton.mp hran).symm
      have hstays : s''.current = s.idle := by
        cases hnow : c.entersAt s with
        | none => exact (hspares.stays hnow).trans hran
        | some now => exact (hspares.idles now hnow hout).mpr (hguard.2 hran now hnow)
      exact hq'.1.running (hstays ▸ hmem))
    ⟨[], schedStart_settled hne hinit, not_mem_nil⟩
  refine ⟨⟨q, hq.readyQueue, hout⟩, fun c s' hallowed hblocked hstep hlast hran => ?_⟩
  obtain ⟨s'', q', hs'', -, hspares⟩ := hq.step hallowed hblocked
  obtain rfl := some.inj (hs''.symm.trans hstep)
  cases hnow : c.entersAt s with
  | none => exact absurd ((hspares.stays hnow).symm.trans hlast) hran
  | some now => exact ⟨now, rfl, (hspares.idles now hnow hout).mp hlast⟩

theorem idle_only_when_idle_sleep : ∃ s₀, threadInit 0 1 = some s₀ ∧ ∃ s,
    GuardedRun SchedState.step (fun s c => (c.Allowed s ∧ c.KeepsBlocked s) ∧ c.IdleStays s)
      (schedStart s₀) [.create 2, .sleep 1000 100, .tick] s ∧
    (∃ q, ReadyQueue s q ∧ s.idle ∉ q) ∧ ∃ s', s.step .block = some s' ∧
      ∃ now ∈ SchedCall.block.entersAt s, s.Quiet now := by
  obtain ⟨s₀, hinit, s, hrun, s', hstep, hidle, hran, hallowed⟩ : ∃ s₀, threadInit 0 1 = some s₀ ∧
      ∃ s, GuardedRun SchedState.step
        (fun s c => (c.Allowed s ∧ c.KeepsBlocked s) ∧ c.IdleStays s) (schedStart s₀)
        [.create 2, .sleep 1000 100, .tick] s ∧ ∃ s', s.step .block = some s' ∧
          s'.current = s.idle ∧ s.current ≠ s.idle ∧ SchedCall.block.Allowed s := by
    decide +kernel
  have h := idle_only_when_idle (by decide) hinit hrun
  exact ⟨s₀, hinit, s, hrun, h.1, s', hstep, h.2 .block s' hallowed trivial hstep hidle hran⟩

/-- The boot thread sleeps and the idle thread runs until thread 2 is created. The idle thread
is then in the queue, and it is chosen although thread 3 is ready. -/
theorem idle_linked_when_preempted :
    ∃ s₀, threadInit 0 1 = some s₀ ∧ ∃ s, GuardedRun SchedState.step
        (fun s c => c.Allowed s ∧ c.KeepsBlocked s) (schedStart s₀)
        [.sleep 1000 100, .create 2, .reschedule, .create 3] s ∧
      queueContains s s.idle = some true ∧ s.stateOf 3 = .ready ∧
      (s.thread 3).cpuMask % 2 = 1 ∧ s.current ≠ s.idle ∧
      ∃ s', schedReschedule s = some s' ∧ s'.current = s.idle ∧ s'.stateOf 3 = .ready := by
  decide +kernel

end Kurios.Sched
