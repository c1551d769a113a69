import Kurios.Proc.Table

/-!
Process groups and sessions.

All processes of a group should be in one session, and a session leader should stay in its
group. `setpgid` looks at one member of the group only, which is enough as long as the group
is in one session; but it lets a session leader change its group, and takes a multiple of
`2 ^ 32` for group 0. `setsid` moves a process to a new session although the group with its PID
has other members, and a new process may get the PID of a group of another session
(`group_in_two_sessions`). `groups_within_sessions` is about the histories in which none of
this happens.
-/

namespace Kurios.Proc.Table

open Base Option List

namespace ProcessTable

variable {t t' : ProcessTable} {p q me : Process} {pid pgrp i : Nat} {e : Call}

/-- All live processes of a group pass a test. -/
def groupAll (t : ProcessTable) (pgrp : Nat) (test : Process → Bool) : Bool :=
  (range maxProcesses).all fun i => (t.slots i).all fun q =>
    !(q.live && q.pgrp == pgrp) || test q

/-- A new process gets a PID that is not the group of live processes of another session;
`setpgid` is given a group that is not 0 modulo `2 ^ 32`, and does not move a session leader;
`setsid` is called by a process whose PID is not the group of others. -/
def KeepsGroups (t : ProcessTable) : Call → Prop
  | .fork _ ok => ok = true → t.me.all (fun me => t.allocPid.all fun pid =>
    t.groupAll pid (·.sessionId == me.sessionId)) = true
  | .setpgid pid pgid => (pgid = 0 ∨ pgid.setWidth 32 ≠ 0) ∧ t.me.all (fun me =>
    (t.slots (setpgidTarget me pid)).all fun p =>
      p.sessionId != p.pid || setpgidGroup me pid pgid == p.pid) = true
  | .setsid => t.me.all (fun me => t.groupAll me.pid (·.id == me.id)) = true
  | _ => True

instance (t : ProcessTable) (e : Call) : Decidable (t.KeepsGroups e) := by
  cases e <;> unfold KeepsGroups <;> infer_instance

theorem Ordered.of_groupAll {test} (h : t.Ordered)
    (hall : t.groupAll pgrp test = true) (hq : t.slots i = some q) (hlive : q.live = true)
    (hpgrp : q.pgrp = pgrp) : test q = true := by
  have hi := all_eq_true.mp hall i (mem_range.mpr (h.pid i q hq).2)
  simpa [hq, hlive, hpgrp] using hi

/-- The live processes of a group are in one session, which is also that of the process whose
PID the group has. A session leader is in its own group. -/
structure Grouped (t : ProcessTable) : Prop extends Ordered t where
  session : ∀ i j p q, t.slots i = some p → t.slots j = some q → p.live = true → q.live = true →
    p.pgrp = q.pgrp → p.sessionId = q.sessionId
  named : ∀ i j p q, t.slots i = some p → t.slots j = some q → q.live = true → q.pgrp = i →
    q.sessionId = p.sessionId
  leader : ∀ i p, t.slots i = some p → p.sessionId = i → p.pgrp = i

/-! ### Steps -/

section

variable (h : t.Grouped) (hord : t'.Ordered)
include h hord

theorem Grouped.stems (hs : Stems SameGroup t t') : t'.Grouped := by
  refine ⟨hord, ?_, ?_, ?_⟩
  · intro i j p' q' hp' hq' hlivep hliveq heq
    obtain ⟨p, hp, hpp'⟩ := hs i p' hp'
    obtain ⟨q, hq, hqq'⟩ := hs j q' hq'
    rw [hpp'.pgrp, hqq'.pgrp] at heq
    rw [hpp'.sessionId, hqq'.sessionId]
    exact h.session i j p q hp hq (hpp'.live hlivep) (hqq'.live hliveq) heq
  · intro i j p' q' hp' hq' hlive heq
    obtain ⟨p, hp, hpp'⟩ := hs i p' hp'
    obtain ⟨q, hq, hqq'⟩ := hs j q' hq'
    rw [hqq'.pgrp] at heq
    rw [hpp'.sessionId, hqq'.sessionId]
    exact h.named i j p q hp hq (hqq'.live hlive) heq
  intro i p' hp' hleader
  obtain ⟨p, hp, hpp'⟩ := hs i p' hp'
  rw [hpp'.sessionId] at hleader
  rw [hpp'.pgrp]
  exact h.leader i p hp hleader

/-- A process that is new, or changes its group or session: the others of its group are in its
session, and so are those of the group with its PID. -/
theorem Grouped.update (hslots : t'.slots = Function.update t.slots pid (some p))
    (hgroup : ∀ j q, j ≠ pid → t.slots j = some q → q.live = true → q.pgrp = p.pgrp →
      q.sessionId = p.sessionId)
    (hjoined : ∀ q, t.slots p.pgrp = some q → p.pgrp ≠ pid → p.sessionId = q.sessionId)
    (hnamed : ∀ j q, j ≠ pid → t.slots j = some q → q.live = true → q.pgrp = pid →
      q.sessionId = p.sessionId)
    (hleader : p.sessionId = pid → p.pgrp = pid) : t'.Grouped := by
  refine ⟨hord, ?_, ?_, ?_⟩
  · intro i j a b ha hb hlivea hliveb heq
    obtain ⟨rfl, rfl⟩ | ⟨hi, ha⟩ := slots_update hslots ha <;>
      obtain ⟨rfl, rfl⟩ | ⟨hj, hb⟩ := slots_update hslots hb
    · rfl
    · exact (hgroup j b hj hb hliveb heq.symm).symm
    · exact hgroup i a hi ha hlivea heq
    · exact h.session i j a b ha hb hlivea hliveb heq
  · intro i j a b ha hb hlive heq
    obtain ⟨rfl, rfl⟩ | ⟨hi, ha⟩ := slots_update hslots ha <;>
      obtain ⟨rfl, rfl⟩ | ⟨hj, hb⟩ := slots_update hslots hb
    · rfl
    · exact hnamed j b hj hb hlive heq
    · subst heq
      exact hjoined a ha hi
    · exact h.named i j a b ha hb hlive heq
  intro i a ha hsess
  obtain ⟨rfl, rfl⟩ | ⟨-, ha⟩ := slots_update hslots ha
  · exact hleader hsess
  · exact h.leader i a ha hsess

/-- A new process has a group of its own. -/
theorem Grouped.new {caller} (hsame : t.groupAll pid (·.sessionId == me.sessionId) = true)
    (hslots : t'.slots = Function.update t.slots pid (some (newProcess t me caller pid))) :
    t'.Grouped := by
  have hmembers : ∀ j q, j ≠ pid → t.slots j = some q → q.live = true → q.pgrp = pid →
      q.sessionId = me.sessionId := by
    intro j q _ hq hlive hpgrp
    exact beq_iff_eq.mp (h.of_groupAll hsame hq hlive hpgrp)
  exact h.update hord hslots hmembers (fun _ _ => absurd rfl) hmembers fun _ => rfl

end

/-- The caller of `setsid` is alone in its group. -/
theorem Grouped.setsid (h : t.Grouped) (hord : (t.setsid me).2.Ordered)
    (hme : t.slots me.pid = some me) (halone : t.groupAll me.pid (·.id == me.id) = true) :
    (t.setsid me).2.Grouped := by
  have hmembers : ∀ j q, j ≠ me.pid → t.slots j = some q → q.live = true → q.pgrp = me.pid →
      q.sessionId = me.pid := by
    intro j q hne hq hlive hpgrp
    have hid := h.of_groupAll halone hq hlive hpgrp
    exact absurd (h.unique j me.pid q me hq hme (beq_iff_eq.mp hid)) hne
  exact h.update hord rfl hmembers (fun _ _ => absurd rfl) hmembers fun _ => rfl

/-- What `setpgid` has checked: the target is in the session of the first member of the group,
or of the process with the group's number if there is none. -/
theorem validateSetpgid_spec {target targetPid newPgrp}
    (htarget : t.slots targetPid = some target) (hnew : newPgrp ≠ 0)
    (hval : 0 ≤ t.validateSetpgid me targetPid newPgrp) (hne : newPgrp ≠ targetPid) :
    (∃ q, t.groupMember newPgrp = some q ∧ q.sessionId = target.sessionId) ∨
    (t.groupMember newPgrp = none ∧ ∃ q, t.slots newPgrp = some q ∧
      q.sessionId = target.sessionId) := by
  -- the error codes are negative
  have heinval : ¬ 0 ≤ einval := by decide
  have hesrch : ¬ 0 ≤ esrch := by decide
  have heacces : ¬ 0 ≤ eacces := by decide
  have heperm : ¬ 0 ≤ eperm := by decide
  unfold validateSetpgid at hval
  split at hval
  · exact absurd hval heinval
  split at hval
  · exact absurd hval hesrch
  case h_2 found hfound =>
  obtain rfl : found = target := some.inj ((getByPid_eq_some hfound).symm.trans htarget)
  split at hval
  · exact absurd hval hesrch
  split at hval
  · exact absurd hval heacces
  simp only [if_pos hne] at hval
  split at hval
  case h_1 q hq =>
    split at hval
    · exact absurd hval heperm
    case isFalse hsess => exact .inl ⟨q, hq, Decidable.not_not.mp hsess⟩
  case h_2 hnone =>
  split at hval
  · exact absurd hval heperm
  case h_2 q hq =>
  split at hval
  · exact absurd hval heperm
  case isFalse hsess => exact .inr ⟨hnone, q, getByPid_eq_some hq, Decidable.not_not.mp hsess⟩

theorem Grouped.setpgid {pid pgid} (h : t.Grouped)
    (hord : (t.setpgid me pid pgid).2.Ordered) (hpgid : pgid = 0 ∨ pgid.setWidth 32 ≠ 0)
    (hmoves : (t.slots (setpgidTarget me pid)).all (fun p =>
      p.sessionId != p.pid || setpgidGroup me pid pgid == p.pid) = true) :
    (t.setpgid me pid pgid).2.Grouped := by
  obtain heq | ⟨target, htarget, hval, heq⟩ := setpgid_spec t me pid pgid
  · rw [heq]
    exact h
  rw [heq] at hord ⊢
  have hleader : target.sessionId = setpgidTarget me pid →
      setpgidGroup me pid pgid = setpgidTarget me pid := by
    intro hsess
    rw [htarget] at hmoves
    simpa [(h.pid _ target htarget).1, hsess] using hmoves
  have hnamed := fun j q (_ : j ≠ setpgidTarget me pid) => h.named _ j target q htarget
  by_cases hown : setpgidGroup me pid pgid = setpgidTarget me pid
  case pos =>
    -- the group with the target's own PID
    rw [hown] at hord ⊢
    refine h.update hord rfl hnamed ?_ hnamed fun _ => rfl
    intro q hq _
    rw [some.inj (htarget.symm.trans hq)]
  case neg =>
  have hnew : setpgidGroup me pid pgid ≠ 0 := by
    unfold setpgidGroup at hown ⊢
    split at hown
    · exact absurd rfl hown
    case isFalse hne =>
    rw [if_neg hne]
    intro hzero
    exact (hpgid.resolve_left hne) (BitVec.eq_of_toNat_eq hzero)
  obtain ⟨first, hfirst, hsess⟩ | ⟨hnone, number, hnumber, hsess⟩ :=
    validateSetpgid_spec htarget hnew hval hown
  case inl =>
    -- one member speaks for the others, and for the process with the group's number
    obtain ⟨i, hslot, htest⟩ := findSome_slot hfirst
    obtain ⟨hpgrp, hlive⟩ := (Bool.and_eq_true _ _).mp htest
    have hpgrp := beq_iff_eq.mp hpgrp
    refine h.update hord rfl ?_ ?_ hnamed hleader
    · intro j q _ hq hliveq hpgrpq
      exact (h.session j i q first hq hslot hliveq hlive (hpgrpq.trans hpgrp.symm)).trans hsess
    · intro q hq _
      exact hsess.symm.trans (h.named _ i q first hq hslot hlive hpgrp)
  case inr =>
  refine h.update hord rfl ?_ ?_ hnamed hleader
  · intro j q _ hq hlive hpgrp
    have hj := findSome?_eq_none_iff.mp hnone j (mem_range.mpr (h.pid j q hq).2)
    simp [hq, hlive, hpgrp] at hj
  · intro q hq _
    rw [← hsess, some.inj (hnumber.symm.trans hq)]

theorem Grouped.step (h : t.Grouped) (hkeeps : t.KeepsGroups e) (hstep : t.step e = some t') :
    t'.Grouped := by
  have hord := h.toOrdered.step hstep
  obtain ⟨hstems, -⟩ | ⟨me, caller, pid, rfl, hme, halloc, hslots, -⟩ |
    ⟨me, pid, pgid, rfl, hme, rfl⟩ | ⟨me, rfl, hme, rfl⟩ := h.toOrdered.step_cases hstep
  · exact h.stems hord hstems
  · have hsame := hkeeps rfl
    rw [hme, all_some, halloc] at hsame
    exact h.new hord hsame hslots
  · obtain ⟨hpgid, hmoves⟩ := hkeeps
    rw [hme] at hmoves
    exact h.setpgid hord hpgid hmoves
  · have halone : t.me.all (fun me => t.groupAll me.pid (·.id == me.id)) = true := hkeeps
    rw [hme] at halone
    exact h.setsid hord (h.deref_spec hme).1 halone

/-- A session leader stays one. -/
theorem Ordered.leader_step {p'} (h : t.Ordered) (hstep : t.step e = some t')
    (hp : t.slots i = some p) (hp' : t'.slots i = some p') (hid : p'.id = p.id)
    (hleader : p.sessionId = i) : p'.sessionId = i := by
  obtain ⟨hstems, -⟩ | ⟨me, caller, pid, rfl, -, halloc, hslots, -⟩ |
    ⟨me, pid, pgid, rfl, -, rfl⟩ | ⟨me, rfl, -, rfl⟩ := h.step_cases hstep
  · obtain ⟨old, hold, hsame⟩ := hstems i p' hp'
    obtain rfl := some.inj (hp.symm.trans hold)
    exact hsame.sessionId.trans hleader
  · obtain ⟨-, rfl⟩ | ⟨-, hold⟩ := slots_update hslots hp'
    · exact absurd hid (h.id i p hp).ne'
    · obtain rfl := some.inj (hp.symm.trans hold)
      exact hleader
  · obtain heq | ⟨target, htarget, -, heq⟩ := setpgid_spec t me pid pgid
    · rw [heq, hp] at hp'
      cases hp'
      exact hleader
    obtain ⟨rfl, rfl⟩ | ⟨-, hold⟩ := slots_update (congrArg slots heq) hp'
    · obtain rfl := some.inj (hp.symm.trans htarget)
      exact hleader
    · obtain rfl := some.inj (hp.symm.trans hold)
      exact hleader
  obtain ⟨rfl, rfl⟩ | ⟨-, hold⟩ := slots_update rfl hp'
  · rfl
  · obtain rfl := some.inj (hp.symm.trans hold)
    exact hleader

theorem grouped_boot : boot.Grouped := by
  have hcases : ∀ i p, boot.slots i = some p → p.sessionId = 0 ∧ p.pgrp = i := by
    intro i p hp
    simp only [boot] at hp
    iterate 2
      split at hp
      case isTrue hi =>
        cases hp
        exact ⟨rfl, hi.symm⟩
    · cases hp
  refine ⟨ordered_boot, ?_, ?_, ?_⟩
  · intro i j p q hp hq _ _ _
    rw [(hcases i p hp).1, (hcases j q hq).1]
  · intro i j p q hp hq _ _
    rw [(hcases i p hp).1, (hcases j q hq).1]
  · intro i p hp _
    exact (hcases i p hp).2

/-! ### Histories -/

/-- In such a history the live processes of a group are always in one session, and no step
changes the group of a session leader. -/
theorem groups_within_sessions {es : List Call} (hrun : GuardedRun step KeepsGroups boot es t) :
    (∀ i j p q, t.slots i = some p → t.slots j = some q → p.live = true → q.live = true →
      p.pgrp = q.pgrp → p.sessionId = q.sessionId) ∧
    ∀ e t', t.KeepsGroups e → t.step e = some t' → ∀ i p p', t.slots i = some p →
      t'.slots i = some p' → p'.id = p.id → p.sessionId = p.pid → p'.pgrp = p.pgrp := by
  have hgrouped : t.Grouped := hrun.inv Grouped (fun _ _ _ h => h.step) grouped_boot
  refine ⟨hgrouped.session, ?_⟩
  intro e t' hkeeps hstep i p p' hp hp' hid hleader
  rw [(hgrouped.pid i p hp).1] at hleader
  have hstays : p'.sessionId = i := hgrouped.leader_step hstep hp hp' hid hleader
  rw [(hgrouped.step hkeeps hstep).leader i p' hp' hstays, hgrouped.leader i p hp hleader]

/-- Init makes a child, which becomes a session leader and makes a child of its own; that one
joins the leader's group, and the leader stays in its group. -/
def session : List Call :=
  [.fork 1 true, .start 2, .setsid, .fork 2 true, .setpgid 3 2, .setpgid 0 0]

theorem groups_within_sessions_session :
    ∃ t, GuardedRun step KeepsGroups boot session t ∧
      (t.slots 2).map (fun p => (p.pgrp, p.sessionId)) = some (2, 2) ∧
      (t.slots 3).map (fun p => (p.pgrp, p.sessionId)) = some (2, 2) ∧
      ∀ p q, t.slots 2 = some p → t.slots 3 = some q → p.live = true → q.live = true →
        p.pgrp = q.pgrp → p.sessionId = q.sessionId := by
  apply exists_and_of₂ (by decide +kernel)
  intro t hrun _ _
  exact (groups_within_sessions hrun).1 2 3

/-- The group, the session and whether it is live. -/
def groupOf (t : ProcessTable) (pid : Nat) : Option (Nat × Nat × Bool) :=
  (t.slots pid).map fun p => (p.pgrp, p.sessionId, p.live)

/-- Init, in session 0, lets its child join its group and then calls `setsid`: group 1 is in
sessions 0 and 1. A session leader moves to its child's group. And `setpgid` with `2 ^ 32`
moves a process of session 2 to group 0, that of the kernel process in session 0. -/
theorem group_in_two_sessions :
    ((run step boot [.fork 1 true, .setpgid 2 1, .setsid]).any fun t =>
      t.groupOf 1 == some (1, 1, true) && t.groupOf 2 == some (1, 0, true)) = true ∧
    ((run step boot [.setsid]).any fun t => t.groupOf 1 == some (1, 1, true)) = true ∧
    ((run step boot [.setsid, .fork 1 true, .setpgid 1 2]).any fun t =>
      t.groupOf 1 == some (2, 1, true)) = true ∧
    ((run step boot [.fork 1 true, .start 2, .setsid, .setpgid 0 (2 ^ 32)]).any fun t =>
      t.groupOf 0 == some (0, 0, true) && t.groupOf 2 == some (0, 2, true)) = true := by
  decide +kernel

end ProcessTable

end Kurios.Proc.Table
