import Kurios.Proc.Table

/-!
Whose children `wait4` returns.

A child is found by the PID of its parent. The parent of a new process is the current one,
which need not be the process whose thread called `fork` (`anothers_child_returned`); and the
processes that are left when their parent has been reaped are children of the next process with
that PID. `wait4_own_children` says that these are the only two ways to get another's child.
`decode_status_iff` says which endings the stored status tells.
-/

namespace Kurios.Proc.Table

open Base Function Option List

namespace ProcessTable

variable {t t' : ProcessTable} {p q : Process} {pid caller : Nat}

/-- No process has a parent with this PID. -/
def childless (t : ProcessTable) (pid : Nat) : Bool :=
  (List.range maxProcesses).all fun i => (t.slots i).all (·.parentPid != pid)

/-- `fork` and `wait4` are served for the process that calls them, and a new process does not
get the PID of a process that has left children. -/
def ForOwner (t : ProcessTable) : Call → Prop
  | .fork caller ok => caller = t.current ∧ (ok = true → t.allocPid.all t.childless = true)
  | .wait4 caller _ => caller = t.current
  | _ => True

instance (t : ProcessTable) (e : Call) : Decidable (t.ForOwner e) := by
  induction e using Call.casesOn <;> unfold ForOwner <;> infer_instance

/-- The children that have terminated and were returned, by their numbers. -/
def reaped (t : ProcessTable) : List Nat := (t.waited.filter (·.terminated)).map (·.child.id)

/-- The PID of the parent is that of the creator, as long as it has one. A thread waits for
children of its own process, and has only got such. -/
structure Owned (t : ProcessTable) : Prop extends Ordered t where
  parent : ∀ i q p, t.slots i = some q → t.slots q.parentPid = some p → q.creator = p.id
  waiting : ∀ caller parent c, t.thread caller = .waiting parent c → parent = caller
  own : ∀ w ∈ t.waited, w.child.creator = w.caller
  gone : ∀ n ∈ t.reaped, n < t.created ∧ ∀ i p, t.slots i = some p → p.id ≠ n
  once : t.reaped.Nodup

/-! ### Steps -/

/-- The families stay, and so do the results. -/
theorem Owned.stems (h : t.Owned) (hord : t'.Ordered) (hs : Stems Same t t')
    (hcre : t.created ≤ t'.created)
    (hwaiting : ∀ caller parent c, t'.thread caller = .waiting parent c → parent = caller)
    (hwaited : t'.waited = t.waited) : t'.Owned := by
  have hreaped : t'.reaped = t.reaped := by
    rw [reaped, reaped, hwaited]
  refine ⟨hord, ?_, hwaiting, hwaited ▸ h.own, ?_, hreaped ▸ h.once⟩
  · intro i q' p' hq' hp'
    obtain ⟨q, hq, hqq'⟩ := hs i q' hq'
    obtain ⟨p, hp, hpp'⟩ := hs _ p' hp'
    rw [hqq'.parentPid] at hp
    rw [hqq'.creator, hpp'.id]
    exact h.parent i q p hq hp
  rw [hreaped]
  intro n hn
  obtain ⟨hlt, hne⟩ := h.gone n hn
  refine ⟨hlt.trans_le hcre, ?_⟩
  intro i p' hp'
  obtain ⟨p, hp, hpp'⟩ := hs i p' hp'
  rw [hpp'.id]
  exact hne i p hp

/-- A new process: its creator has its parent's PID, and it has no children. -/
theorem Owned.new {me} (h : t.Owned) (hme : t.deref caller = some me)
    (halloc : t.allocPid = some pid) (hless : t.childless pid = true)
    (hslots : t'.slots = update t.slots pid (some (newProcess t me caller pid)))
    (hcre : t'.created = t.created + 1) (hthread : t'.thread = t.thread)
    (hwaited : t'.waited = t.waited) : t'.Owned := by
  obtain ⟨hme, hid⟩ := h.toOrdered.deref_spec hme
  have hreaped : t'.reaped = t.reaped := by
    rw [reaped, reaped, hwaited]
  refine ⟨h.toOrdered.fork halloc hslots hcre, ?_, hthread ▸ h.waiting, hwaited ▸ h.own, ?_,
    hreaped ▸ h.once⟩
  · intro i q p hq hp
    obtain ⟨rfl, rfl⟩ | ⟨-, hq⟩ := slots_update hslots hq
    · -- the new process is not its own parent, whose slot was taken
      obtain ⟨heq, -⟩ | ⟨-, hp⟩ := slots_update hslots hp
      · have hfree := (allocPid_spec halloc).1
        rw [show me.pid = i from heq, hfree] at hme
        cases hme
      · obtain rfl : me = p := some.inj (hme.symm.trans hp)
        exact hid.symm
    · obtain ⟨heq, -⟩ | ⟨-, hp⟩ := slots_update hslots hp
      · have hi := all_eq_true.mp hless i (mem_range.mpr (h.pid i q hq).2)
        exact absurd heq (by simpa [hq] using hi)
      · exact h.parent i q p hq hp
  rw [hreaped, hcre]
  intro n hn
  obtain ⟨hlt, hne⟩ := h.gone n hn
  refine ⟨hlt.trans (lt_add_one _), ?_⟩
  intro i p hp
  obtain ⟨rfl, rfl⟩ | ⟨-, hp⟩ := slots_update hslots hp
  · exact hlt.ne'
  · exact hne i p hp

/-- A pass of the loop of `wait4`: the child's creator is the process that waits, and a child
that has terminated is gone. -/
theorem Owned.waits {parent} (h : t.Owned) (hslot : t.slots parent.pid = some parent)
    (hw : Waits parent parent.id t t') : t'.Owned := by
  have hord : t'.Ordered := h.toOrdered.stems hw.stems (fun _ _ => SameGroup.toSame) hw.created.ge
  obtain hwaited | ⟨child, terminated, hchild, hpar, hwaited, hcleared⟩ := hw.waited
  case inl => exact h.stems hord hw.stems.same hw.created.ge (hw.thread ▸ h.waiting) hwaited
  case inr =>
  -- the state without the new result is in order
  have hbef : ({ t' with waited := t.waited } : ProcessTable).Owned :=
    h.stems ⟨hord.pid, hord.id, hord.unique⟩ hw.stems.same hw.created.ge
      (hw.thread ▸ h.waiting) rfl
  have hown : child.creator = parent.id := h.parent _ child parent hchild (hpar ▸ hslot)
  have howns : ∀ w ∈ t'.waited, w.child.creator = w.caller := by
    rw [hwaited]
    intro w hmem
    obtain rfl | hold := mem_cons.mp hmem
    · exact hown
    · exact h.own w hold
  cases terminated with
  | false =>
    have hreaped : t'.reaped = t.reaped := by
      rw [reaped, reaped, hwaited]
      rfl
    exact ⟨hord, hbef.parent, hbef.waiting, howns, hreaped ▸ hbef.gone, hreaped ▸ h.once⟩
  | true =>
    have hreaped : t'.reaped = child.id :: t.reaped := by
      rw [reaped, reaped, hwaited]
      rfl
    -- no other process has the child's number
    have hgone : ∀ i p, t'.slots i = some p → p.id ≠ child.id := by
      intro i p' hp' heq
      obtain ⟨p, hp, hsame⟩ := hw.stems i p' hp'
      obtain rfl := h.unique i child.pid p child hp hchild (hsame.id.symm.trans heq)
      rw [hcleared rfl] at hp'
      cases hp'
    refine ⟨hord, hbef.parent, hbef.waiting, howns, ?_, ?_⟩ <;> rw [hreaped]
    · intro n hn
      obtain rfl | hold := mem_cons.mp hn
      · exact ⟨hw.created ▸ h.id _ child hchild, hgone⟩
      · exact hbef.gone n hold
    apply nodup_cons.mpr
    constructor
    · intro hmem
      exact (h.gone _ hmem).2 _ child hchild rfl
    · exact h.once

/-- A thread that is not waiting. -/
theorem waiting_update {parent a}
    (h : ∀ caller parent c, t.thread caller = .waiting parent c → parent = caller)
    (ha : ∀ parent c, a = .waiting parent c → parent = pid) {c}
    (hthread : update t.thread pid a caller = .waiting parent c) : parent = caller := by
  obtain ⟨rfl, heq⟩ | ⟨-, hold⟩ := update_cases hthread
  · exact ha parent c heq
  · exact h caller parent c hold

theorem Owned.step {e} (h : t.Owned) (hfor : t.ForOwner e) (hstep : t.step e = some t') :
    t'.Owned := by
  have hord := h.toOrdered.step hstep
  cases e with
  | fork caller ok =>
    obtain ⟨-, me, hme, rfl⟩ := ite_map_eq_some hstep
    obtain ⟨hcaller, hless⟩ := hfor
    obtain ⟨hslots, hcre, hwaited, hthread⟩ | ⟨pid, hok, halloc, heq⟩ := fork_spec t me caller ok
    · have hstems : Stems Same t (t.fork me caller ok) := by
        intro i p hp
        exact ⟨p, hslots ▸ hp, rfl, rfl, rfl, rfl⟩
      exact h.stems hord hstems hcre (hthread ▸ h.waiting) hwaited
    have hless := hless hok
    rw [halloc] at hless
    rw [hcaller] at heq ⊢
    rw [heq]
    exact h.new hme halloc hless rfl rfl rfl rfl
  | start pid =>
    obtain ⟨p, -, hp⟩ := bind_eq_some_iff.mp hstep
    obtain ⟨-, rfl⟩ := ite_eq_some hp
    apply h.stems hord (stems_refl t).same le_rfl ?_ rfl
    intro caller parent c hthread
    refine waiting_update h.waiting ?_ hthread
    intro _ _ heq
    cases heq
  | exit code =>
    obtain ⟨me, hme, rfl⟩ := map_eq_some_iff.mp hstep
    have hs := stems_setSlot SameGroup.refl (h.deref_spec hme).1 (processExit_same me code)
    exact h.stems hord hs.same le_rfl h.waiting rfl
  | stop signum =>
    obtain ⟨me, hme, rfl⟩ := map_eq_some_iff.mp hstep
    have hs := stems_setSlot SameGroup.refl (h.deref_spec hme).1 (processStop_same me signum)
    exact h.stems hord hs.same le_rfl h.waiting rfl
  | cont =>
    obtain ⟨me, hme, rfl⟩ := map_eq_some_iff.mp hstep
    have hs := stems_setSlot SameGroup.refl (h.deref_spec hme).1 (processContinue_same me)
    exact h.stems hord hs.same le_rfl h.waiting rfl
  | wait4 caller c =>
    obtain ⟨-, me, hme, rfl⟩ := ite_map_eq_some hstep
    apply h.stems hord (stems_refl t).same le_rfl ?_ rfl
    intro k parent c' hthread
    refine waiting_update h.waiting (fun parent c' heq => ?_) hthread
    -- the call is served for its caller
    obtain ⟨rfl, -⟩ := Activity.waiting.inj heq
    exact (h.deref_spec hme).2.trans hfor.symm
  | pass caller =>
    obtain ⟨parent, c, hthread, hslot, s, hwaits, heq⟩ := h.pass_spec hstep
    obtain rfl : parent.id = caller := h.waiting caller parent.id c hthread
    have hs := h.waits hslot hwaits
    obtain rfl | rfl := heq
    · exact hs
    apply hs.stems hord (stems_refl s).same le_rfl ?_ rfl
    intro k k' c' hk
    refine waiting_update h.waiting ?_ hk
    intro _ _ heq
    cases heq
  | setpgid pid pgid =>
    obtain ⟨me, -, rfl⟩ := map_eq_some_iff.mp hstep
    obtain heq | ⟨target, htarget, -, heq⟩ := setpgid_spec t me pid pgid
    · rw [heq]
      exact h
    · rw [heq] at hord ⊢
      exact h.stems hord (stems_regroup htarget) le_rfl h.waiting rfl
  | setsid =>
    obtain ⟨me, hme, rfl⟩ := map_eq_some_iff.mp hstep
    exact h.stems hord (stems_regroup (h.deref_spec hme).1) le_rfl h.waiting rfl

theorem owned_boot : boot.Owned where
  toOrdered := ordered_boot
  parent i q p hq hp := by
    simp only [boot] at hq
    split at hq
    · cases hq
      cases hp
      rfl
    split at hq <;> cases hq
    · cases hp
      rfl
  waiting caller parent c hthread := by
    simp only [boot] at hthread
    split at hthread <;> cases hthread
  own _ hw := nomatch hw
  gone _ hn := nomatch hn
  once := nodup_nil

/-! ### Histories -/

/-- As long as calls are served for their callers, and the PID of a process with children left
is not used again: what `wait4` returns to a process was created by that process, and a
terminated child is returned once. -/
theorem wait4_own_children {es : List Call} (hrun : GuardedRun step ForOwner boot es t) :
    (∀ w ∈ t.waited, w.child.creator = w.caller) ∧
      (t.waited.filter (·.terminated)).Pairwise (fun w w' => w.child.id ≠ w'.child.id) := by
  have howned : t.Owned := hrun.inv Owned (fun _ _ _ h => h.step) owned_boot
  exact ⟨howned.own, pairwise_map.mp howned.once⟩

/-- `wait4(-1, NULL, 0)`. -/
def anyChild : WaitCall :=
  { target := -1, untraced := false, continued := false, nohang := false, copied := true }

/-- Init waits for its child, which starts and is killed. -/
def childKilled : List Call := [.fork 1 true, .wait4 1 anyChild, .start 2, .exit 137, .pass 1]

/-- The child is returned to init. -/
theorem wait4_own_children_killed :
    ∃ t, GuardedRun step ForOwner boot childKilled t ∧ t.reaped = [2] ∧
      ∀ w ∈ t.waited, w.child.creator = w.caller := by
  apply exists_and_of (by decide +kernel)
  intro t hrun _
  exact (wait4_own_children hrun).1

/-- After its child has started, init makes another one, which has the first as its parent. -/
def servedForChild : List Call :=
  [.fork 1 true, .start 2, .fork 1 true, .wait4 2 anyChild, .start 3, .exit 137, .pass 2]

/-- A child of init is returned to its other child. -/
theorem anothers_child_returned :
    ((run step boot servedForChild).any fun t => t.waited.head?.any fun w =>
      w.child.pid == 3 && w.child.creator == 1 && w.caller == 2 && w.terminated) = true := by
  decide +kernel

end ProcessTable

/-! ### The status of a child -/

/-- How a process ends: by `exit`, by a signal of `kill`, or by a page fault, which is
`SIGSEGV`. -/
inductive Ending where
  | exit (code : Int)
  | signal (signum : Nat)
  | fault
deriving DecidableEq

/-- The process after `sys_exit`, `handle_default_signal` or `page_fault_handler`, and whether the
machine goes on: two of them end in a loop of `hlt`, and `sys_exit` without `process_exit`. -/
def Ending.perform (p : Process) : Ending → Process × Bool
  | exit _ => (p, false)
  | signal signum => (ProcessTable.processExit p (128 + signum), true)
  | fault => (ProcessTable.processExit p (-11), false)

/-- `kstatus` of `sys_wait4` for a zombie. -/
def zombieStatus (exitCode : Int) : Int :=
  if 128 ≤ exitCode then exitCode - 128 else exitCode % 256 * 256

/-- What `sys_wait4` stores for the process, if it gets to run. -/
def Ending.status (p : Process) (e : Ending) : Option Int :=
  let (p, runs) := e.perform p
  if runs ∧ p.state = .zombie then some (zombieStatus p.exitCode) else none

/-- What `WIFEXITED`, `WEXITSTATUS`, `WIFSIGNALED` and `WTERMSIG` say about a status. -/
inductive Decoded where
  | exited (code : Int)
  | signaled (signum : Int)
  | neither
deriving DecidableEq

def decode (status : Int) : Decoded :=
  if status % 128 = 0 then .exited (status / 256 % 256)
  else if status % 128 ≠ 127 then .signaled (status % 128)
  else .neither

/-- What they should say. -/
def Ending.decoded : Ending → Decoded
  | exit code => .exited (code % 256)
  | signal signum => .signaled signum
  | fault => .signaled 11

/-- Nothing is told of an exit or of a page fault. -/
def Ending.Told : Ending → Prop
  | exit _ => False
  | signal signum => 0 < signum ∧ signum < 127
  | fault => False

theorem decode_signal_iff (signum : Nat) :
    decode (zombieStatus (128 + signum)) = .signaled signum ↔ 0 < signum ∧ signum < 127 := by
  rw [zombieStatus, if_pos (by omega)]
  unfold decode
  split_ifs <;> simp <;> omega

end Kurios.Proc.Table
