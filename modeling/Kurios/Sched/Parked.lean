import Kurios.Sched.Run

/-!
Blocked threads do not run.

A thread that is blocked, and neither running nor the idle thread, stays so through
every call of the scheduler but `thread_unblock` for the thread itself. Nothing is asked
of the ready queue: `pick_next_locked` tests the state of the thread it takes, however it
got there.
-/

namespace Kurios.Sched

open Base Function Option

variable {s s' : SchedState} {t x next fuel : Nat}

structure Parked (s : SchedState) (t : Nat) : Prop where
  blocked : s.stateOf t = .blocked
  current : s.current ≠ t
  idle : s.idle ≠ t

namespace Parked

section

variable (h : Parked s t)
include h

theorem of_roles (hroles : SameRoles s s') (hstate : s'.stateOf t = s.stateOf t) : Parked s' t where
  blocked := hstate.trans h.blocked
  current := hroles.current ▸ h.current
  idle := hroles.idle ▸ h.idle

theorem setState (hne : x ≠ t) (state : ThreadState) : Parked (s.setState x state) t := by
  apply h.of_roles ((SameRoles.refl s).setState x state)
  rw [SchedState.stateOf_setState, if_neg hne.symm]

theorem queueAdd (hne : x ≠ t) : Parked (queueAdd s x) t := by
  apply h.of_roles (roles_queueAdd s x)
  rw [stateOf_queueAdd, if_neg hne.symm]

theorem queueRemove (hremove : queueRemove s x = some s') : Parked s' t := by
  obtain ⟨found, -, rfl⟩ := map_eq_some_iff.mp hremove
  split
  · apply h.of_roles (roles_unlink s x)
    rw [stateOf_unlink]
  · exact h

theorem putBack (hne : x ≠ t) : Parked (putBack s x) t := by
  unfold Sched.putBack
  split
  · exact h.queueAdd hne
  · exact (h.queueAdd hne).setState hne .sleeping
  · exact (h.queueAdd hne).setState hne .blocked
  · exact h
  · exact h

theorem wakeFrom {now curr} (hwake : wakeFrom now fuel curr s = some s') : Parked s' t := by
  induction fuel generalizing curr s with
  | zero =>
    cases curr with
    | none => exact some.inj hwake ▸ h
    | some x => cases hwake
  | succ n ih =>
    cases curr with
    | none => exact some.inj hwake ▸ h
    | some x =>
      rw [Sched.wakeFrom] at hwake
      split at hwake
      case isTrue hsleeping =>
        -- The thread that is woken was asleep.
        have hne : x ≠ t := by
          rintro rfl
          rw [h.blocked] at hsleeping
          cases hsleeping.1
        exact ih (h.setState hne .ready) hwake
      · exact ih h hwake

end

/-- A walk returns what a visit gave, or that there was none. -/
theorem walk_cases {α β : Type} {next : α → Option α} {visit : α → Option β} {done result curr}
    (h : walk next visit done fuel curr = some result) :
    result = done ∨ ∃ x, visit x = some result := by
  induction fuel generalizing curr with
  | zero =>
    cases curr with
    | none => exact .inl (some.inj h).symm
    | some x => cases h
  | succ n ih =>
    cases curr with
    | none => exact .inl (some.inj h).symm
    | some x =>
      rw [walk] at h
      cases hvisit : visit x with
      | none =>
        rw [hvisit] at h
        exact ih h
      | some r =>
        rw [hvisit] at h
        exact .inr ⟨x, hvisit.trans h⟩

section

variable (h : Parked s t)
include h

/-- The thread that is picked is ready, or it is the idle thread. -/
theorem pickNext (hpick : pickNext s = some (next, s')) : Parked s' t ∧ next ≠ t := by
  obtain ⟨s1, hwake, hfind⟩ := bind_eq_some_iff.mp hpick
  obtain ⟨found, hfound, heq⟩ := map_eq_some_iff.mp hfind
  obtain ⟨rfl, rfl⟩ := Prod.mk.inj heq
  have hparked := h.wakeFrom hwake
  refine ⟨hparked, ?_⟩
  rcases walk_cases hfound with hnone | ⟨x, hvisit⟩
  · rw [hnone]
    exact hparked.idle
  obtain ⟨⟨hready, -⟩, rfl⟩ := ite_eq_some hvisit
  intro heq
  have hblk : s1.stateOf x = .blocked := (show x = t from heq) ▸ hparked.blocked
  cases hblk.symm.trans hready

theorem switchTo (hnext : next ≠ t) (hswitch : switchTo s next = some s') : Parked s' t := by
  unfold Sched.switchTo at hswitch
  split at hswitch
  · cases hswitch
    split
    · exact h.setState h.current .running
    · exact h
  obtain ⟨s1, hremove, rfl⟩ := map_eq_some_iff.mp hswitch
  have hrem := (h.putBack h.current).queueRemove hremove
  have hrun := hrem.setState hnext .running
  exact ⟨hrun.blocked, hnext, hrun.idle⟩

theorem reschedule (hstep : schedReschedule s = some s') : Parked s' t := by
  obtain ⟨⟨next, s1⟩, hpick, hswitch⟩ := bind_eq_some_iff.mp hstep
  obtain ⟨hparked, hnext⟩ := h.pickNext hpick
  exact hparked.switchTo hnext hswitch

theorem create (hne : x ≠ t) : Parked (threadCreate s x) t := by
  rw [threadCreate_eq]
  apply Parked.queueAdd _ hne
  refine ⟨?_, h.current, h.idle⟩
  show (update s.thread x newThread t).state = .blocked
  rw [update_of_ne hne.symm]
  exact h.blocked

theorem unblock (hne : x ≠ t) : Parked (threadUnblock s x) t := by
  unfold threadUnblock schedReady
  split
  · split
    · exact h.setState hne .ready
    · exact (h.setState hne .ready).queueAdd hne
  · exact h

theorem tick (hstep : schedTick s = some s') : Parked s' t := by
  have hticks : ∀ slice ticks, Parked { s with slice := slice, ticks := ticks } t :=
    fun _ _ => ⟨h.blocked, h.current, h.idle⟩
  simp only [schedTick] at hstep
  split at hstep
  · exact some.inj hstep ▸ hticks _ _
  obtain ⟨s1, hwake, hrest⟩ := bind_eq_some_iff.mp hstep
  have hwoken := (hticks _ _).wakeFrom hwake
  split at hrest
  · have hslice : Parked { s1 with slice := timeSliceTicks } t :=
      ⟨hwoken.blocked, hwoken.current, hwoken.idle⟩
    exact hslice.reschedule hrest
  · exact some.inj hrest ▸ hwoken

/-- Every call but the one that unblocks the thread keeps it parked. -/
theorem step (ht : t ∈ s.threads) {c} (hallow : c.Allowed s) (hc : c ≠ .unblock t)
    (hstep : s.step c = some s') : Parked s' t := by
  cases c with
  | create x =>
    cases hstep
    exact h.create fun heq => hallow (heq ▸ ht)
  | reschedule => exact h.reschedule hstep
  | sleep ms freq =>
    simp only [SchedState.step, threadSleepMs] at hstep
    split at hstep
    · exact some.inj hstep ▸ h
    have hmodify : ∀ f, Parked (s.modify s.current f) t := by
      intro f
      refine ⟨?_, h.current, h.idle⟩
      show (update s.thread s.current _ t).state = .blocked
      rw [update_of_ne h.current.symm]
      exact h.blocked
    exact (hmodify _).reschedule hstep
  | block => exact (h.setState h.current .blocked).reschedule hstep
  | unblock x =>
    cases hstep
    exact h.unblock fun heq => hc (heq ▸ rfl)
  | exit => exact (h.setState h.current .terminated).reschedule hstep
  | tick => exact h.tick hstep

end

end Parked

end Kurios.Sched
