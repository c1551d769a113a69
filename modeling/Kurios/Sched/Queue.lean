import Kurios.Sched.Defs

/-!
The ready queue as a list.

`Linked s q` says that the `next` and `prev` fields, the head and the tail describe the
list `q`. Each operation on the queue has one lemma in these terms; `Woken` is what the
walk over the sleeping threads can change, and `reschedule` says what a whole
`sched_reschedule` does to the queue and the running thread.
-/

namespace Kurios.Sched

open Base Function Option List

variable {s s' : SchedState} {q l : List Nat} {t : Nat}

/-! ### Fields after an update -/

namespace SchedState

section

variable (s : SchedState) (t : Nat) (state : ThreadState) (link : Option Nat) (x : Nat)

@[simp] theorem setState_links :
    (s.setState t state).next = s.next ∧ (s.setState t state).prev = s.prev := by
  constructor <;> funext x <;> simp only [next, prev, setState, modify, update_apply] <;>
    split <;> simp_all

theorem stateOf_setState :
    (s.setState t state).stateOf x = if x = t then state else s.stateOf x := by
  simp only [stateOf, setState, modify, update_apply]
  split <;> rfl

theorem next_setNext : (s.setNext t link).next x = if x = t then link else s.next x := by
  simp only [next, setNext, modify, update_apply]
  split <;> rfl

@[simp] theorem setNext_rest :
    (s.setNext t link).prev = s.prev ∧ (s.setNext t link).stateOf = s.stateOf := by
  constructor <;> funext x <;> simp only [prev, stateOf, setNext, modify, update_apply] <;>
    split <;> simp_all

theorem prev_setPrev : (s.setPrev t link).prev x = if x = t then link else s.prev x := by
  simp only [prev, setPrev, modify, update_apply]
  split <;> rfl

@[simp] theorem setPrev_rest :
    (s.setPrev t link).next = s.next ∧ (s.setPrev t link).stateOf = s.stateOf := by
  constructor <;> funext x <;> simp only [next, stateOf, setPrev, modify, update_apply] <;>
    split <;> simp_all

end

end SchedState

open SchedState
  (next prev stateOf setNext_rest setPrev_rest next_setNext prev_setPrev stateOf_setState)

/-- Two states with the same threads of the same roles. -/
structure SameRoles (s s' : SchedState) : Prop where
  threads : s'.threads = s.threads
  current : s'.current = s.current
  idle : s'.idle = s.idle

theorem SameRoles.refl (s : SchedState) : SameRoles s s := ⟨rfl, rfl, rfl⟩

theorem SameRoles.trans {s1 s2 s3} (h : SameRoles s1 s2) (h' : SameRoles s2 s3) : SameRoles s1 s3 :=
  ⟨h'.threads.trans h.threads, h'.current.trans h.current, h'.idle.trans h.idle⟩

theorem SameRoles.setState (h : SameRoles s s') (t : Nat) (state : ThreadState) :
    SameRoles s (s'.setState t state) :=
  ⟨h.threads, h.current, h.idle⟩

/-! ### Adding -/

section Add

variable (s : SchedState) (t x : Nat)

theorem thread_queueAdd : (queueAdd s t).thread x =
      let th := if x = t then { s.thread t with state := .ready, next := none, prev := s.tail }
        else s.thread x
      if s.tail = some x then { th with next := some t } else th := by
  cases htail : s.tail with
  | none => simp [queueAdd, htail, SchedState.modify, update_apply]
  | some last =>
    simp only [queueAdd, htail, SchedState.setNext, SchedState.modify, update_apply, some.injEq]
    by_cases hx : x = last
    · simp [hx]
    · simp [hx, Ne.symm hx]

theorem next_queueAdd : (queueAdd s t).next x =
      if s.tail = some x then some t else if x = t then none else s.next x := by
  rw [SchedState.next, thread_queueAdd]
  split_ifs <;> rfl

theorem prev_queueAdd : (queueAdd s t).prev x = if x = t then s.tail else s.prev x := by
  rw [SchedState.prev, thread_queueAdd]
  split_ifs <;> rfl

theorem stateOf_queueAdd : (queueAdd s t).stateOf x = if x = t then .ready else s.stateOf x := by
  rw [stateOf, thread_queueAdd]
  split_ifs <;> rfl

theorem head_queueAdd : (queueAdd s t).head = if s.tail = none then some t else s.head := by
  cases htail : s.tail <;> simp [queueAdd, htail, SchedState.modify, SchedState.setNext]

theorem tail_queueAdd : (queueAdd s t).tail = some t := by
  cases htail : s.tail <;> simp [queueAdd, htail]

theorem roles_queueAdd : SameRoles s (queueAdd s t) := by
  cases htail : s.tail <;> simp only [queueAdd, htail] <;> exact ⟨rfl, rfl, rfl⟩

end Add

/-! ### Removing -/

section Remove

variable (s : SchedState) (t x : Nat)

theorem links_unlinkBefore : (unlinkBefore s t).prev x = s.prev x ∧
    (unlinkBefore s t).next x = if s.prev t = some x then s.next t else s.next x := by
  unfold unlinkBefore
  cases s.prev t with
  | none => exact ⟨rfl, rfl⟩
  | some before => simp [next_setNext, eq_comm]

theorem links_unlinkAfter : (unlinkAfter s t).next x = s.next x ∧
    (unlinkAfter s t).prev x = if s.next t = some x then s.prev t else s.prev x := by
  unfold unlinkAfter
  cases s.next t with
  | none => exact ⟨rfl, rfl⟩
  | some after => simp [prev_setPrev, eq_comm]

theorem ends_unlinkBefore : (unlinkBefore s t).tail = s.tail ∧
    (unlinkBefore s t).head = if s.prev t = none then s.next t else s.head := by
  unfold unlinkBefore
  cases s.prev t <;> exact ⟨rfl, rfl⟩

theorem ends_unlinkAfter : (unlinkAfter s t).head = s.head ∧
    (unlinkAfter s t).tail = if s.next t = none then s.prev t else s.tail := by
  unfold unlinkAfter
  cases s.next t <;> exact ⟨rfl, rfl⟩

theorem stateOf_unlink : (unlink s t).stateOf = s.stateOf := by
  have hbef : (unlinkBefore s t).stateOf = s.stateOf := by
    unfold unlinkBefore
    cases s.prev t with
    | none => rfl
    | some before => exact (setNext_rest _ _ _).2
  have hafter : ∀ s : SchedState, (unlinkAfter s t).stateOf = s.stateOf := by
    intro s
    unfold unlinkAfter
    cases s.next t with
    | none => rfl
    | some after => exact (setPrev_rest _ _ _).2
  simp [unlink, hafter, hbef]

theorem roles_unlink : SameRoles s (unlink s t) := by
  unfold unlink unlinkAfter unlinkBefore
  split <;> split <;> exact ⟨rfl, rfl, rfl⟩

end Remove

/-! ### The queue as a list -/

/-- The links, the head and the tail describe `q`. -/
structure Linked (s : SchedState) (q : List Nat) : Prop where
  links : DList s.next s.prev q
  head : s.head = q.head?
  tail : s.tail = q.getLast?

namespace Linked

section

variable (h : Linked s q)
include h

/-- Updates of other fields and of other threads. -/
theorem frame (hnext : ∀ t ∈ q, s'.next t = s.next t) (hprev : ∀ t ∈ q, s'.prev t = s.prev t)
    (hhead : s'.head = s.head) (htail : s'.tail = s.tail) : Linked s' q :=
  ⟨h.links.frame hnext hprev, hhead.trans h.head, htail.trans h.tail⟩

theorem setState (t : Nat) (state : ThreadState) : Linked (s.setState t state) q :=
  h.frame (fun x _ => congrFun (s.setState_links t state).1 x)
    (fun x _ => congrFun (s.setState_links t state).2 x) rfl rfl

theorem queueAdd (ht : t ∉ q) : Linked (queueAdd s t) (q ++ [t]) where
  links := by
    have hne : ∀ y ∈ q, y ≠ t := fun y hy he => ht (he ▸ hy)
    apply h.links.append ht
    · rw [prev_queueAdd, if_pos rfl, h.tail]
    · rw [next_queueAdd, h.tail, if_neg fun he => ht (mem_of_getLast? he), if_pos rfl]
    · intro y hy
      rw [next_queueAdd, h.tail, if_neg (hne y hy)]
    · intro y hy
      rw [prev_queueAdd, if_neg (hne y hy)]
  head := by
    rw [head_queueAdd, h.tail, h.head]
    cases q <;> simp
  tail := by
    rw [tail_queueAdd]
    simp

theorem unlink (ht : t ∈ q) : Linked (unlink s t) (q.erase t) := by
  have hself : s.prev t ≠ some t := h.links.prev_ne_self ht
  -- the second assignment reads `thread->next` after the first one has written to another node
  have hread : (unlinkBefore s t).next t = s.next t := by
    rw [(links_unlinkBefore ..).2, if_neg hself]
  constructor
  · apply h.links.remove ht
    · intro y _ hy
      simp [Sched.unlink, next_setNext, if_neg hy, links_unlinkAfter, links_unlinkBefore]
    · intro y _ hy
      simp [Sched.unlink, prev_setPrev, if_neg hy, links_unlinkAfter, links_unlinkBefore, hread]
  · rw [h.links.head?_erase ht, ← h.head]
    exact (ends_unlinkAfter _ t).1.trans (ends_unlinkBefore s t).2
  rw [h.links.getLast?_erase ht, ← h.tail]
  have htail := (ends_unlinkAfter (unlinkBefore s t) t).2
  rw [hread, (links_unlinkBefore ..).1, (ends_unlinkBefore s t).1] at htail
  exact htail

theorem queueContains (hfuel : q.length ≤ s.threads.length) (t : Nat) :
    queueContains s t = some (decide (t ∈ q)) := by
  unfold Sched.queueContains
  rw [h.head, h.links.links.walk_eq _ _ hfuel, findSome?_mem]

theorem queueRemove (hfuel : q.length ≤ s.threads.length) (t : Nat) :
    ∃ s', queueRemove s t = some s' ∧ Linked s' (q.erase t) ∧ SameRoles s s' ∧
      s'.stateOf = s.stateOf := by
  unfold Sched.queueRemove
  rw [h.queueContains hfuel]
  by_cases ht : t ∈ q
  · refine ⟨Sched.unlink s t, ?_, h.unlink ht, roles_unlink s t, stateOf_unlink s t⟩
    simp [ht]
  · refine ⟨s, ?_, ?_, SameRoles.refl s, rfl⟩
    · simp [ht]
    · rwa [erase_of_not_mem ht]

end

end Linked

/-! ### Picking a thread -/

/-- A sleeper whose time has come. -/
def Thread.Due (th : Thread) (now : Nat) : Prop := th.state = .sleeping ∧ th.wakeTime ≤ now
deriving Decidable

/-- Ready after the sleepers have been woken, and allowed on CPU 0. -/
def SchedState.Runnable (s : SchedState) (now t : Nat) : Prop :=
  (s.stateOf t = .ready ∨ (s.thread t).Due now) ∧ (s.thread t).cpuMask % 2 = 1
deriving Decidable

/-- What the walk over the sleeping threads of `q` does. -/
structure Woken (now : Nat) (q : List Nat) (s s' : SchedState) : Prop where
  roles : SameRoles s s'
  timer : s'.ticks = s.ticks ∧ s'.slice = s.slice
  head : s'.head = s.head
  tail : s'.tail = s.tail
  thread : ∀ t, s'.thread t =
    if t ∈ q ∧ (s.thread t).Due now then { s.thread t with state := .ready } else s.thread t

namespace Woken

section

variable {now : Nat} (h : Woken now q s s')
include h

theorem linked (hq : Linked s l) : Linked s' l := by
  refine hq.frame (fun x _ => ?_) (fun x _ => ?_) h.head h.tail
  · rw [SchedState.next, h.thread]
    split <;> rfl
  · rw [SchedState.prev, h.thread]
    split <;> rfl

theorem states (t : Nat) : s'.stateOf t = s.stateOf t ∨
    t ∈ q ∧ s.stateOf t = .sleeping ∧ s'.stateOf t = .ready := by
  rw [stateOf, h.thread]
  split
  · next hdue => exact .inr ⟨hdue.1, hdue.2.1, rfl⟩
  · exact .inl rfl

theorem runnable (t : Nat) : s'.Runnable now t ↔ s.Runnable now t := by
  unfold SchedState.Runnable stateOf
  rw [h.thread]
  split
  · next hdue => simp [hdue.2]
  · rfl

/-- A thread of the queue is ready now if it was before or if its time has come. -/
theorem ready_iff (ht : t ∈ q) : s'.stateOf t = .ready ∧ (s'.thread t).cpuMask % 2 = 1 ↔
    s.Runnable now t := by
  rw [← h.runnable t]
  refine ⟨fun hready => ⟨.inl hready.1, hready.2⟩, fun hrun => ⟨hrun.1.resolve_right ?_, hrun.2⟩⟩
  -- whoever was due is ready
  rw [h.thread]
  split
  · exact fun hdue => by cases hdue.1
  · next hnot => exact fun hdue => hnot ⟨ht, hdue⟩

end

end Woken

theorem wakeFrom_spec (now : Nat) {p fuel} (h : Segment s.next s.prev p q none)
    (hfuel : q.length ≤ fuel) : ∃ s', wakeFrom now fuel q.head? s = some s' ∧ Woken now q s s' := by
  induction q generalizing p fuel s with
  | nil => exact ⟨s, by simp [wakeFrom], SameRoles.refl s, ⟨rfl, rfl⟩, rfl, rfl, fun t => by simp⟩
  | cons x xs ih =>
    obtain _ | n := fuel
    · cases hfuel
    obtain ⟨-, hnext, hrest⟩ := h
    rw [List.head?_cons, wakeFrom]
    split
    · next hwake =>
      obtain ⟨s', hs', hw⟩ := ih (s := s.setState x .ready)
        (by simpa using hrest) (by simpa using hfuel)
      refine ⟨s', ?_, ⟨hw.roles.1, hw.roles.2, hw.roles.3⟩, hw.timer, hw.head, hw.tail, fun t => ?_⟩
      · rw [(s.setState_links x _).1, hnext, or_none]
        exact hs'
      rw [hw.thread]
      by_cases ht : t = x
      · subst ht
        have hready : (s.setState t .ready).thread t = { s.thread t with state := .ready } :=
          update_self ..
        rw [hready, if_neg (fun hdue => by cases hdue.2.1), if_pos ⟨mem_cons_self, hwake⟩]
      · have hother : (s.setState x .ready).thread t = s.thread t := update_of_ne ht ..
        simp [hother, ht]
    next hnot =>
    obtain ⟨s', hs', hw⟩ := ih hrest (by simpa using hfuel)
    refine ⟨s', ?_, hw.roles, hw.timer, hw.head, hw.tail, fun t => ?_⟩
    · rw [hnext, or_none]
      exact hs'
    rw [hw.thread]
    by_cases ht : t = x
    · subst ht
      simp [show ¬ (s.thread t).Due now from hnot]
    · simp [ht]

theorem Linked.wakeSleepingThreads (h : Linked s q) (hfuel : q.length ≤ s.threads.length) :
    ∃ s', wakeSleepingThreads s = some s' ∧ Woken s.ticks q s s' := by
  unfold Sched.wakeSleepingThreads
  rw [h.head]
  exact wakeFrom_spec s.ticks h.links.links hfuel

/-- The thread to run next is in the queue and can run, or it is the idle thread because none of
the queue can. -/
theorem Linked.pickNext (h : Linked s q) (hfuel : q.length ≤ s.threads.length) :
    ∃ next s', pickNext s = some (next, s') ∧ Woken s.ticks q s s' ∧
      (next ∈ q ∧ s.Runnable s.ticks next ∨
        next = s.idle ∧ ∀ t ∈ q, ¬ s.Runnable s.ticks t) := by
  obtain ⟨s', hs', hw⟩ := h.wakeSleepingThreads hfuel
  have hlinked := hw.linked h
  have hfind := hlinked.links.links.walk_eq (fun t =>
    if s'.stateOf t = .ready ∧ (s'.thread t).cpuMask % 2 = 1 then some (some t) else none) none
    (hw.roles.threads ▸ hfuel)
  rw [← hlinked.head] at hfind
  have hpick : Sched.pickNext s = (findReady s').map fun found => (found.getD s'.idle, s') := by
    simp [Sched.pickNext, hs']
  rw [findReady, hfind] at hpick
  cases hfound : q.findSome? fun t =>
      if s'.stateOf t = .ready ∧ (s'.thread t).cpuMask % 2 = 1 then some (some t) else none with
  | none =>
    rw [hfound] at hpick
    refine ⟨s'.idle, s', hpick, hw, .inr ⟨hw.roles.idle, fun t ht hrun => ?_⟩⟩
    have hskipped := findSome?_eq_none_iff.mp hfound t ht
    rw [if_pos ((hw.ready_iff ht).mpr hrun)] at hskipped
    cases hskipped
  | some found =>
    rw [hfound] at hpick
    obtain ⟨x, hx, hvisit⟩ := exists_of_findSome?_eq_some hfound
    split at hvisit <;> cases hvisit
    next hready => exact ⟨x, s', hpick, hw, .inl ⟨hx, (hw.ready_iff hx).mp hready⟩⟩

/-! ### Rescheduling -/

/-- What the queue promises about every thread, with `q` the list it describes. -/
structure Queued (s : SchedState) (q : List Nat) : Prop where
  linked : Linked s q
  known : ∀ t ∈ q, t ∈ s.threads
  current : s.current ∈ s.threads
  idle : s.idle ∈ s.threads
  running : s.current ∉ q
  waiting : ∀ t ∈ s.threads, t ≠ s.current → t ≠ s.idle → s.stateOf t ≠ .terminated → t ∈ q

/-- After the sleepers have been woken, no thread but the idle one and the one that gives up the
CPU is ready and allowed on CPU 0. -/
def SchedState.Quiet (s : SchedState) (now : Nat) : Prop :=
  ∀ t ∈ s.threads, t ≠ s.idle → t ≠ s.current → ¬ s.Runnable now t
deriving Decidable

/-- A call that enters `sched_reschedule` at the time `now`, or not at all, links no thread of
before but the one that ran, and leads to the idle thread exactly if nobody else is ready. -/
structure Spares (s : SchedState) (q : List Nat) (now : Option Nat) (s' : SchedState)
    (q' : List Nat) : Prop where
  idle : s'.idle = s.idle
  links : ∀ t ∈ q', t ∈ s.threads → t ∈ q ++ [s.current]
  stays : now = none → s'.current = s.current
  idles : ∀ n ∈ now, s.idle ∉ q → (s'.current = s.idle ↔ s.Quiet n)

namespace Queued

section

variable (h : Queued s q)
include h

theorem fuel : q.length ≤ s.threads.length := (h.linked.links.nodup.subperm h.known).length_le

/-- The walk over the sleeping threads, and updates of the running thread. -/
theorem frame (hlinked : Linked s' q) (hroles : SameRoles s s')
    (hstates : ∀ t, t ≠ s.current → s.stateOf t ≠ .terminated ∨ s'.stateOf t = s.stateOf t) :
    Queued s' q where
  linked := hlinked
  known := by
    rw [hroles.threads]
    exact h.known
  current := by
    rw [hroles.threads, hroles.current]
    exact h.current
  idle := by
    rw [hroles.threads, hroles.idle]
    exact h.idle
  running := by
    rw [hroles.current]
    exact h.running
  waiting := by
    rw [hroles.threads, hroles.current, hroles.idle]
    intro t ht hcur hidle hstate
    refine h.waiting t ht hcur hidle fun hterm => ?_
    rcases hstates t hcur with hne | hsame
    · exact hne hterm
    · exact hstate (hsame.trans hterm)

theorem woken {now} (hw : Woken now l s s') : Queued s' q := by
  refine h.frame (hw.linked h.linked) hw.roles fun t _ => ?_
  rcases hw.states t with hsame | ⟨-, hsleeping, -⟩
  · exact .inr hsame
  · exact .inl (by simp [hsleeping])

/-- An update of the running thread, which is not linked. -/
theorem modifyCurrent (f : Thread → Thread) : Queued (s.modify s.current f) q := by
  have hother : ∀ t ≠ s.current, (s.modify s.current f).thread t = s.thread t :=
    fun t ht => update_of_ne ht _ _
  have hne : ∀ t ∈ q, t ≠ s.current := fun t ht he => h.running (he ▸ ht)
  refine h.frame (h.linked.frame ?_ ?_ rfl rfl) ⟨rfl, rfl, rfl⟩ fun t ht => .inr ?_
  · exact fun t ht => congrArg Thread.next (hother t (hne t ht))
  · exact fun t ht => congrArg Thread.prev (hother t (hne t ht))
  · exact congrArg Thread.state (hother t ht)

/-- The thread that was running goes to the end of the queue, unless it has exited. -/
theorem putBack (hstate : s.stateOf s.current ≠ .ready) :
    ∃ q', Linked (putBack s s.current) q' ∧ SameRoles s (putBack s s.current) ∧
      q' ⊆ q ++ [s.current] ∧
      ∀ t ∈ s.threads, t ≠ s.idle → (Sched.putBack s s.current).stateOf t ≠ .terminated →
        t ∈ q' := by
  have hadd := h.linked.queueAdd h.running
  have hroles := roles_queueAdd s s.current
  -- the state of the other threads is what it was
  have hother : ∀ t ≠ s.current, (Sched.putBack s s.current).stateOf t = s.stateOf t := by
    intro t ht
    unfold Sched.putBack
    split <;> simp [stateOf_setState, stateOf_queueAdd, if_neg ht]
  have hwaiting : ∀ t ∈ s.threads, t ≠ s.idle →
      (Sched.putBack s s.current).stateOf t ≠ .terminated → t ∈ q ++ [s.current] := by
    intro t ht hidle hterm
    by_cases hcur : t = s.current
    · exact mem_append_right _ (mem_singleton.mpr hcur)
    · rw [hother t hcur] at hterm
      exact mem_append_left _ (h.waiting t ht hcur hidle hterm)
  cases hcase : s.stateOf s.current with
  | running =>
    refine ⟨_, ?_, ?_, Subset.refl _, hwaiting⟩
    · simpa [Sched.putBack, hcase] using hadd
    · simpa [Sched.putBack, hcase] using hroles
  | sleeping | blocked =>
    refine ⟨_, ?_, ?_, Subset.refl _, hwaiting⟩
    · simpa [Sched.putBack, hcase] using hadd.setState _ _
    · simpa [Sched.putBack, hcase] using hroles.setState _ _
  | terminated =>
    have hsame : Sched.putBack s s.current = s := by simp only [Sched.putBack, hcase]
    rw [hsame]
    refine ⟨q, h.linked, SameRoles.refl s, subset_append_left _ _, fun t ht hidle hterm => ?_⟩
    refine h.waiting t ht ?_ hidle hterm
    rintro rfl
    exact hterm hcase
  | ready => exact absurd hcase hstate

/-- A switch to a thread of the queue or to the idle thread. -/
theorem switchTo {next} (hnext : next ∈ q ∨ next = s.idle) (hstate : s.stateOf s.current ≠ .ready)
    (hidle : s.current = s.idle → s.stateOf s.current = .running) :
    ∃ s' q', switchTo s next = some s' ∧ Queued s' q' ∧ s'.stateOf s'.current = .running ∧
      s'.idle = s.idle ∧ s'.current = next ∧ q' ⊆ q ++ [s.current] := by
  unfold Sched.switchTo
  split
  · next hsame =>
    -- only the idle thread can be chosen while it runs
    have hcur : s.current = s.idle := by
      rcases hnext with hq | hi
      · exact absurd (hsame ▸ hq) h.running
      · exact hsame.symm.trans hi
    have hrun := hidle hcur
    exact ⟨s, q, by simp [hrun], h, hrun, rfl, hsame.symm, subset_append_left _ _⟩
  next hne =>
  obtain ⟨q', hlinked, hroles, hsub, hwaiting⟩ := h.putBack hstate
  have hknown : ∀ t ∈ q', t ∈ s.threads := fun t ht =>
    forall_mem_append.mpr ⟨h.known, forall_mem_singleton.mpr h.current⟩ t (hsub ht)
  have hfuel : q'.length ≤ (Sched.putBack s s.current).threads.length := by
    rw [hroles.threads]
    exact (hlinked.links.nodup.subperm hknown).length_le
  obtain ⟨s', hs', hrem, hroles', hstates⟩ := hlinked.queueRemove hfuel next
  have hall := hroles.trans hroles'
  refine ⟨{ s'.setState next .running with current := next, slice := timeSliceTicks },
    q'.erase next, by rw [hs', map_some], ?_, ?_, hall.idle, rfl, fun t ht =>
      hsub (mem_of_mem_erase ht)⟩
  · constructor
    · exact (hrem.setState next .running).frame (fun _ _ => rfl) (fun _ _ => rfl) rfl rfl
    · intro t ht
      exact (congrArg (t ∈ ·) hall.threads).mpr (hknown t (mem_of_mem_erase ht))
    · show next ∈ s'.threads
      rw [hall.threads]
      rcases hnext with hq | rfl
      · exact h.known next hq
      · exact h.idle
    · show s'.idle ∈ s'.threads
      rw [hall.threads, hall.idle]
      exact h.idle
    · exact hlinked.links.nodup.not_mem_erase
    intro t ht htn htidle hterm
    have hterm' : (Sched.putBack s s.current).stateOf t ≠ .terminated := by
      have hkept : (s'.setState next .running).stateOf t = s'.stateOf t := by
        rw [stateOf_setState, if_neg htn]
      rw [← hstates, ← hkept]
      exact hterm
    exact (mem_erase_of_ne htn).mpr (hwaiting t (hall.threads ▸ ht) (hall.idle ▸ htidle) hterm')
  · show (s'.setState next .running).stateOf next = .running
    rw [stateOf_setState, if_pos rfl]

/-- `sched_reschedule` returns, and the thread that runs then is not in the queue. -/
theorem reschedule (hstate : s.stateOf s.current ≠ .ready)
    (hidle : s.current = s.idle → s.stateOf s.current = .running) :
    ∃ s' q', schedReschedule s = some s' ∧ Queued s' q' ∧ s'.stateOf s'.current = .running ∧
      Spares s q (some s.ticks) s' q' := by
  obtain ⟨next, s1, hpick, hw, hnext⟩ := h.linked.pickNext h.fuel
  have hcur : s1.stateOf s1.current = s.stateOf s.current := by
    rw [hw.roles.current]
    rcases hw.states s.current with hsame | ⟨hq, -, -⟩
    · exact hsame
    · exact absurd hq h.running
  obtain ⟨s', q', hs', hqueued, hrun, hidle', hcurrent', hsub⟩ := (h.woken hw).switchTo
    (hw.roles.idle ▸ hnext.imp And.left And.left) (hcur ▸ hstate)
    (by rw [hcur, hw.roles.current, hw.roles.idle]; exact hidle)
  have hresched : schedReschedule s = some s' := by
    rw [schedReschedule, hpick]
    exact hs'
  refine ⟨s', q', hresched, hqueued, hrun, hidle'.trans hw.roles.idle, ?_, by simp, ?_⟩
  · exact fun t ht _ => hw.roles.current ▸ hsub ht
  rintro _ ⟨⟩ hout
  rw [hcurrent']
  constructor
  · rintro hlast t ht hne hcur' hready
    obtain ⟨hq, -⟩ | ⟨-, hnone⟩ := hnext
    · exact hout (hlast ▸ hq)
    · refine hnone t (h.waiting t ht hcur' hne fun hterm => ?_) hready
      rcases hready.1 with hstate | hdue
      · simp [hstate] at hterm
      · simp [stateOf, hdue.1] at hterm
  · intro hquiet
    obtain ⟨hq, hready⟩ | ⟨hidle, -⟩ := hnext
    · refine absurd hready (hquiet next (h.known next hq) ?_ ?_)
      · exact fun he => hout (he ▸ hq)
      · exact fun he => h.running (he ▸ hq)
    · exact hidle

end

end Queued

end Kurios.Sched
