import Kurios.Proc.Limits
import Kurios.Signal.Jobs

/-!
The process table: `kernel/process/process.c`, and the system calls on processes of
`kernel/syscall/syscall.c` that are about parents, groups and sessions.

`process_table` has a slot for each PID. A parent is known by its PID alone, and a PID is
handed out again once its slot is empty. To tell processes with the same PID apart, each has
a number `id` that is never used again, and the number `creator` of the process whose thread
called `fork`; the kernel knows neither.

`current_process` is a pointer, here the number of the process it points to. It is written
when a child starts (`fork_child_entry`) and not when threads are switched, so a call comes
with the process `caller` whose thread makes it, and is served for `current`. `wait4` keeps
the pointer that it read at first while it repeats its loop. What happens with a pointer to a
process that is gone is not modelled.

Signals are delivered to the current process at the end of a system call. A process ends, is
stopped and goes on by their default action, and its thread runs on (`Kurios.Signal.Jobs`);
`sys_exit` stops the machine.
-/

namespace Kurios.Proc.Table

open Base Function Option List

variable {caller : Nat}

def esrch : Int := -3
def echild : Int := -10
def eacces : Int := -13

/-- The fields of `process_t` for families, groups and sessions. -/
structure Process where
  pid : Nat
  parentPid : Nat
  state : Signal.ProcState
  pgrp : Nat
  sessionId : Nat
  execCount : Nat := 0
  exitCode : Int := 0
  stopSignal : Nat := 0
  stopReported : Bool := false
  continueReported : Bool := false
  id : Nat
  creator : Nat
deriving DecidableEq, Repr

/-- Not a zombie and not dead. -/
def Process.live (p : Process) : Bool := p.state != .zombie && p.state != .dead

/-- `wait4` returned the PID of `child` to the process `caller`. -/
structure Waited where
  child : Process
  caller : Nat
  terminated : Bool
deriving DecidableEq, Repr

/-- The arguments of `wait4`; `copied` says whether the status can be stored, if it is asked
for. -/
structure WaitCall where
  target : BitVec 32
  untraced : Bool
  continued : Bool
  nohang : Bool
  copied : Bool
deriving DecidableEq, Repr

/-- What the thread of a process does: it has not run yet, it is in user code, or in the loop
of `wait4`, with the pointer `parent`. -/
inductive Activity where
  | unstarted
  | user
  | waiting (parent : Nat) (c : WaitCall)
deriving DecidableEq, Repr

/-- `thread` is for the numbers of processes, `created` counts them, and `waited` are the
results of `wait4` so far. -/
structure ProcessTable where
  slots : Nat → Option Process
  nextPid : Nat
  current : Nat
  thread : Nat → Activity
  created : Nat
  waited : List Waited

namespace ProcessTable

section

variable (t : ProcessTable)

/-- `process_get_by_pid`. -/
def getByPid (pid : Nat) : Option Process :=
  if maxProcesses ≤ pid then none else t.slots pid

/-- The process behind a pointer. `none`: it is gone. -/
def deref (id : Nat) : Option Process :=
  (range maxProcesses).findSome? fun i => (t.slots i).filter (·.id = id)

/-- `process_current`. -/
def me : Option Process := t.deref t.current

def setSlot (pid : Nat) (p : Option Process) : ProcessTable :=
  { t with slots := update t.slots pid p }

end

/-! ### Creation and end -/

/-- Skip PID 0. -/
def skipZero (pid : Nat) : Nat := if pid = 0 then 1 else pid

/-- `alloc_pid_locked`. -/
def allocPid (t : ProcessTable) : Option Nat :=
  (range maxProcesses).findSome? fun i =>
    let pid := skipZero ((t.nextPid + i) % maxProcesses)
    if (t.slots pid).isNone then some pid else none

/-- `process_create`, with the number of the process whose thread calls it. -/
def processCreate (t : ProcessTable) (me : Process) (caller : Nat) : Option (Nat × ProcessTable) :=
  t.allocPid.map fun pid =>
    (pid, { t with
      slots := update t.slots pid (some
        { pid := pid, parentPid := me.pid, state := .embryo, pgrp := pid,
          sessionId := me.sessionId, id := t.created, creator := caller })
      nextPid := skipZero ((pid + 1) % maxProcesses)
      created := t.created + 1 })

/-- `process_exit`. -/
def processExit (p : Process) (code : Int) : Process :=
  { p with state := .zombie, exitCode := code }

/-- `process_destroy` of a zombie. -/
def processDestroy (t : ProcessTable) (p : Process) : ProcessTable :=
  if p.state = .zombie ∨ p.state = .dead then t.setSlot p.pid none else t

/-- The part of `sys_fork_impl` that the table sees: `ok` says whether the steps after
`process_create` succeed. -/
def fork (t : ProcessTable) (me : Process) (caller : Nat) (ok : Bool) : ProcessTable :=
  match t.processCreate me caller with
  | none => t
  | some (pid, t) =>
    if ok then t.setSlot pid ((t.slots pid).map fun p => { p with state := .ready })
    else ((t.slots pid).map fun p => t.processDestroy (processExit p (-1))).getD t

/-! ### Job control -/

/-- `process_stop`. -/
def processStop (p : Process) (signum : Nat) : Process :=
  if p.live then { p with state := .stopped, stopSignal := signum, stopReported := false } else p

/-- `process_continue`. -/
def processContinue (p : Process) : Process :=
  if p.state = .stopped then { p with state := .ready, stopSignal := 0, continueReported := false }
  else p

/-! ### `wait4` -/

section

variable (t : ProcessTable) (parentPid : Nat)

/-- `process_has_children`. -/
def hasChildren : Bool :=
  (range' 1 (maxProcesses - 1)).any fun i => (t.slots i).any fun p =>
    p.parentPid == parentPid && p.state != .dead && p.state != .unused

/-- The loop of the three searches: `wanted` is the PID that is waited for, if any. -/
def findChild (wanted : Option Nat) (test : Process → Bool) : Option Process :=
  (range' 1 (maxProcesses - 1)).findSome? fun i => (t.slots i).filter fun p =>
    p.parentPid == parentPid && wanted.all (· == p.pid) && test p

/-- `process_find_zombie_child`. -/
def findZombieChild (wanted : Option Nat) : Option Process :=
  t.findChild parentPid wanted fun p => p.state == .zombie

/-- `process_find_stopped_child`. -/
def findStoppedChild (wanted : Option Nat) : Option Process :=
  t.findChild parentPid wanted fun p => p.state == .stopped && !p.stopReported

/-- `process_find_continued_child`. -/
def findContinuedChild (wanted : Option Nat) : Option Process :=
  t.findChild parentPid wanted fun p =>
    p.state != .stopped && !p.continueReported && (p.stopSignal != 0 || p.stopReported)

end

/-- `wait_for`: `none` is any child. -/
def waitFor (target : BitVec 32) : Option Nat :=
  if target.toInt ≤ 0 then none else some target.toNat

/-- The result goes to the caller, unless the status cannot be stored. -/
def report (t : ProcessTable) (c : WaitCall) (child : Process) (caller : Nat) (terminated : Bool) :
    Int × ProcessTable :=
  if c.copied then (child.pid, { t with waited := ⟨child, caller, terminated⟩ :: t.waited })
  else (efault, t)

/-- One pass of the loop of `sys_wait4`; 0 if nothing was found. -/
def wait4 (t : ProcessTable) (parent : Process) (caller : Nat) (c : WaitCall) :
    Int × ProcessTable :=
  if !t.hasChildren parent.pid then (echild, t) else
  match t.findZombieChild parent.pid (waitFor c.target) with
  | some child =>
    -- the child is only destroyed once the status is stored
    if c.copied then (t.processDestroy child).report c child caller true else (efault, t)
  | none =>
  match if c.untraced then t.findStoppedChild parent.pid (waitFor c.target) else none with
  | some child =>
    (t.setSlot child.pid (some { child with stopReported := true })).report c child caller false
  | none =>
  match if c.continued then t.findContinuedChild parent.pid (waitFor c.target) else none with
  | some child =>
    (t.setSlot child.pid (some { child with continueReported := true })).report c child caller false
  | none => (0, t)

/-! ### Groups and sessions -/

/-- The first process in the table that is live and in the group. -/
def groupMember (t : ProcessTable) (pgrp : Nat) : Option Process :=
  (range maxProcesses).findSome? fun i => (t.slots i).filter fun p => p.pgrp == pgrp && p.live

/-- `pgrp_validate_setpgid`. -/
def validateSetpgid (t : ProcessTable) (me : Process) (targetPid newPgrp : Nat) : Int :=
  if targetPid = 0 then einval else
  match t.getByPid targetPid with
  | none => esrch
  | some target =>
    if targetPid ≠ me.pid ∧ target.parentPid ≠ me.pid then esrch
    else if targetPid ≠ me.pid ∧ 0 < target.execCount then eacces
    else
      let newPgrp := if newPgrp = 0 then targetPid else newPgrp
      if newPgrp ≠ targetPid then
        match t.groupMember newPgrp with
        | some p => if p.sessionId ≠ target.sessionId then eperm else 0
        | none =>
          match t.getByPid newPgrp with
          | none => eperm
          | some leader => if leader.sessionId ≠ target.sessionId then eperm else 0
      else 0

/-- The target of `setpgid`, and the group, as 32-bit numbers. -/
def setpgidTarget (me : Process) (pid : BitVec 64) : Nat :=
  if pid = 0 then me.pid else (pid.setWidth 32).toNat

def setpgidGroup (me : Process) (pid pgid : BitVec 64) : Nat :=
  if pgid = 0 then setpgidTarget me pid else (pgid.setWidth 32).toNat

/-- `sys_setpgid`. -/
def setpgid (t : ProcessTable) (me : Process) (pid pgid : BitVec 64) : Int × ProcessTable :=
  let targetPid := setpgidTarget me pid
  let newPgid := setpgidGroup me pid pgid
  let ret := t.validateSetpgid me targetPid newPgid
  if ret < 0 then (ret, t) else
  match t.getByPid targetPid with
  | none => (esrch, t)
  | some target => (0, t.setSlot targetPid (some { target with pgrp := newPgid }))

/-- `sys_setsid`. -/
def setsid (t : ProcessTable) (me : Process) : Int × ProcessTable :=
  (me.pid, t.setSlot me.pid (some { me with sessionId := me.pid, pgrp := me.pid }))

/-! ### Histories -/

/-- The table when init enters user mode: `process_init` makes the kernel process, which makes
init. -/
def boot : ProcessTable where
  slots i :=
    if i = 0 then
      some { pid := 0, parentPid := 0, state := .running, pgrp := 0, sessionId := 0, id := 0,
             creator := 0 }
    else if i = 1 then
      some { pid := 1, parentPid := 0, state := .embryo, pgrp := 1, sessionId := 0, id := 1,
             creator := 0 }
    else none
  nextPid := 2
  current := 1
  thread id := if id = 1 then .user else .unstarted
  created := 2
  waited := []

/-- `fork` and `wait4` by a thread of a process, `pass` for the loop of `wait4`, the first run
of the thread of a child, and what happens to the current process at the end of a call. -/
inductive Call where
  | fork (caller : Nat) (ok : Bool)
  | start (pid : Nat)
  | exit (code : Int)
  | stop (signum : Nat)
  | cont
  | wait4 (caller : Nat) (c : WaitCall)
  | pass (caller : Nat)
  | setpgid (pid pgid : BitVec 64)
  | setsid

def step (t : ProcessTable) : Call → Option ProcessTable
  | .fork caller ok =>
    if t.thread caller = .user then t.me.map fun me => t.fork me caller ok else none
  | .start pid =>
    (t.getByPid pid).bind fun p =>
      if t.thread p.id = .unstarted then
        some { t with current := p.id, thread := update t.thread p.id .user }
      else none
  | .exit code => t.me.map fun me => t.setSlot me.pid (some (processExit me code))
  | .stop signum => t.me.map fun me => t.setSlot me.pid (some (processStop me signum))
  | .cont => t.me.map fun me => t.setSlot me.pid (some (processContinue me))
  | .wait4 caller c =>
    if t.thread caller = .user then
      t.me.map fun me => { t with thread := update t.thread caller (.waiting me.id c) }
    else none
  | .pass caller =>
    match t.thread caller with
    | .waiting parent c =>
      (t.deref parent).map fun parent =>
        let (ret, t) := t.wait4 parent caller c
        if ret = 0 ∧ ¬ c.nohang then t
        else { t with thread := update t.thread caller .user }
    | _ => none
  | .setpgid pid pgid => t.me.map fun me => (t.setpgid me pid pgid).2
  | .setsid => t.me.map fun me => (t.setsid me).2

/-! ### What the steps do -/

variable {t t' : ProcessTable} {p q : Process} {pid : Nat}

/-- A table in order: a process is in the slot of its PID, and no number is used twice. -/
structure Ordered (t : ProcessTable) : Prop where
  pid : ∀ i p, t.slots i = some p → p.pid = i ∧ i < maxProcesses
  id : ∀ i p, t.slots i = some p → p.id < t.created
  unique : ∀ i j p q, t.slots i = some p → t.slots j = some q → p.id = q.id → i = j

/-- The process after a step is the one before. -/
structure Same (p p' : Process) : Prop where
  pid : p'.pid = p.pid
  parentPid : p'.parentPid = p.parentPid
  id : p'.id = p.id
  creator : p'.creator = p.creator

/-- Its group and its session have not changed. -/
structure SameGroup (p p' : Process) : Prop extends Same p p' where
  pgrp : p'.pgrp = p.pgrp
  sessionId : p'.sessionId = p.sessionId
  live : p'.live = true → p.live = true

theorem SameGroup.refl (p : Process) : SameGroup p p := ⟨⟨rfl, rfl, rfl, rfl⟩, rfl, rfl, id⟩

/-- Every process of `t'` is one of `t`, up to what `R` allows to change. -/
def Stems (R : Process → Process → Prop) (t t' : ProcessTable) : Prop :=
  ∀ i p', t'.slots i = some p' → ∃ p, t.slots i = some p ∧ R p p'

theorem stems_refl (t : ProcessTable) : Stems SameGroup t t := fun _ p hp => ⟨p, hp, .refl p⟩

/-- A process of a table with a new entry is that entry, or was there before. -/
theorem slots_update {i} (hslots : t'.slots = update t.slots pid (some q))
    (hp : t'.slots i = some p) : (i = pid ∧ p = q) ∨ (i ≠ pid ∧ t.slots i = some p) := by
  rw [hslots] at hp
  obtain ⟨rfl, ⟨⟩⟩ | hold := update_cases hp
  · exact .inl ⟨rfl, rfl⟩
  · exact .inr hold

variable {R : Process → Process → Prop}

theorem stems_setSlot (hrefl : ∀ p, R p p) (hp : t.slots pid = some p) (hq : R p q) :
    Stems R t (t.setSlot pid (some q)) := by
  intro i p' hp'
  obtain ⟨rfl, rfl⟩ | ⟨-, hold⟩ := slots_update rfl hp'
  · exact ⟨p, hp, hq⟩
  · exact ⟨p', hold, hrefl p'⟩

theorem stems_clear (t : ProcessTable) (pid : Nat) : Stems SameGroup t (t.setSlot pid none) := by
  intro i p' hp'
  obtain ⟨-, ⟨⟩⟩ | ⟨-, hold⟩ := update_cases hp'
  exact ⟨p', hold, .refl p'⟩

theorem Ordered.stems (h : t.Ordered) (hs : Stems R t t') (hR : ∀ p p', R p p' → Same p p')
    (hcre : t.created ≤ t'.created) : t'.Ordered where
  pid i p' hp' := by
    obtain ⟨p, hp, hpp'⟩ := hs i p' hp'
    rw [(hR p p' hpp').pid]
    exact h.pid i p hp
  id i p' hp' := by
    obtain ⟨p, hp, hpp'⟩ := hs i p' hp'
    rw [(hR p p' hpp').id]
    exact (h.id i p hp).trans_le hcre
  unique i j p' q' hp' hq' heq := by
    obtain ⟨p, hp, hpp'⟩ := hs i p' hp'
    obtain ⟨q, hq, hqq'⟩ := hs j q' hq'
    rw [(hR p p' hpp').id, (hR q q' hqq').id] at heq
    exact h.unique i j p q hp hq heq

variable {test : Process → Bool}

theorem findSome_slot {xs : List Nat}
    (h : xs.findSome? (fun i => (t.slots i).filter test) = some p) :
    ∃ i, t.slots i = some p ∧ test p = true := by
  obtain ⟨i, -, hp⟩ := exists_of_findSome?_eq_some h
  exact ⟨i, filter_eq_some_iff.mp hp⟩

/-- A process is found in its slot. -/
theorem Ordered.deref_spec {id : Nat} (h : t.Ordered) (hp : t.deref id = some p) :
    t.slots p.pid = some p ∧ p.id = id := by
  obtain ⟨i, hslot, hid⟩ := findSome_slot hp
  rw [(h.pid i p hslot).1]
  exact ⟨hslot, by simpa using hid⟩

theorem getByPid_eq_some (h : t.getByPid pid = some p) : t.slots pid = some p :=
  (ite_none_left_eq_some.mp h).2

/-- A free slot. -/
theorem allocPid_spec (h : t.allocPid = some pid) : t.slots pid = none ∧ pid < maxProcesses := by
  obtain ⟨i, -, hi⟩ := exists_of_findSome?_eq_some h
  obtain ⟨hfree, rfl⟩ := ite_eq_some hi
  refine ⟨isNone_iff_eq_none.mp hfree, ?_⟩
  unfold skipZero maxProcesses
  split <;> omega

theorem allocPid_eq_none_iff :
    t.allocPid = none ↔ ∀ pid, 0 < pid → pid < maxProcesses → t.slots pid ≠ none := by
  simp only [allocPid, findSome?_eq_none_iff, mem_range, maxProcesses]
  refine ⟨fun h pid hpos hlt hfree => ?_, fun h i _ => ?_⟩
  · obtain ⟨i, hi, hpid⟩ : ∃ i < 256, (t.nextPid + i) % 256 = pid :=
      ⟨(pid + 256 - t.nextPid % 256) % 256, by omega, by omega⟩
    simpa [hpid, skipZero, hpos.ne', hfree] using h i hi
  · refine if_neg fun hnone => h _ ?_ ?_ (isNone_iff_eq_none.mp hnone) <;> grind [skipZero]

/-- The process that a successful `fork` makes. -/
def newProcess (t : ProcessTable) (me : Process) (caller pid : Nat) : Process :=
  { pid := pid, parentPid := me.pid, state := .ready, pgrp := pid, sessionId := me.sessionId,
    id := t.created, creator := caller }

/-- `fork` leaves every process as it is, and adds one if it succeeds. -/
theorem fork_spec (t : ProcessTable) (me : Process) (caller : Nat) (ok : Bool) :
    (t.fork me caller ok).slots = t.slots ∧ t.created ≤ (t.fork me caller ok).created ∧
        (t.fork me caller ok).waited = t.waited ∧ (t.fork me caller ok).thread = t.thread ∨
      ∃ pid, ok = true ∧ t.allocPid = some pid ∧
        t.fork me caller ok =
          { t with
            slots := update t.slots pid (some (newProcess t me caller pid))
            nextPid := skipZero ((pid + 1) % maxProcesses)
            created := t.created + 1 } := by
  unfold fork processCreate
  cases halloc : t.allocPid with
  | none => exact .inl ⟨rfl, le_rfl, rfl, rfl⟩
  | some pid =>
    cases ok with
    | true =>
      right
      refine ⟨pid, rfl, rfl, ?_⟩
      simp [setSlot, newProcess]
    | false =>
      have hslots : update t.slots pid none = t.slots := by
        rw [← (allocPid_spec halloc).1, update_eq_self]
      simp [setSlot, processDestroy, processExit, hslots]

theorem processExit_same (p : Process) (code : Int) : SameGroup p (processExit p code) :=
  ⟨⟨rfl, rfl, rfl, rfl⟩, rfl, rfl, fun hlive => nomatch hlive⟩

theorem processStop_same (p : Process) (signum : Nat) : SameGroup p (processStop p signum) := by
  unfold processStop
  split
  case isTrue hlive => exact ⟨⟨rfl, rfl, rfl, rfl⟩, rfl, rfl, fun _ => hlive⟩
  · exact .refl p

theorem processContinue_same (p : Process) : SameGroup p (processContinue p) := by
  unfold processContinue
  split
  case isTrue hstopped =>
    refine ⟨⟨rfl, rfl, rfl, rfl⟩, rfl, rfl, fun _ => ?_⟩
    rw [Process.live, hstopped]
    rfl
  · exact .refl p

/-- What a pass of `wait4` may do: no process changes its family or group, and at most one
result is added, a child of the process that it is for. -/
structure Waits (parent : Process) (caller : Nat) (t t' : ProcessTable) : Prop where
  stems : Stems SameGroup t t'
  created : t'.created = t.created
  current : t'.current = t.current
  thread : t'.thread = t.thread
  waited : t'.waited = t.waited ∨ ∃ child terminated, t.slots child.pid = some child ∧
    child.parentPid = parent.pid ∧ t'.waited = ⟨child, caller, terminated⟩ :: t.waited ∧
      (terminated = true → t'.slots child.pid = none)

theorem Waits.refl (parent : Process) (caller : Nat) (t : ProcessTable) : Waits parent caller t t :=
  ⟨stems_refl t, rfl, rfl, rfl, .inl rfl⟩

/-- The child is in its slot, and has the parent's PID. -/
theorem Ordered.findChild_spec {parentPid : Nat} {wanted : Option Nat} (h : t.Ordered)
    (hp : t.findChild parentPid wanted test = some p) :
    t.slots p.pid = some p ∧ p.parentPid = parentPid ∧ test p = true := by
  obtain ⟨i, hslot, htest⟩ := findSome_slot hp
  simp only [Bool.and_eq_true, beq_iff_eq] at htest
  rw [(h.pid i p hslot).1]
  exact ⟨hslot, htest.1.1, htest.2⟩

/-- A result about a child that is changed in its slot. -/
theorem waits_report {parent child child' c} (hslot : t.slots child.pid = some child)
    (hpar : child.parentPid = parent.pid) (hsame : SameGroup child child') : Waits parent caller t
      ((t.setSlot child.pid (some child')).report c child caller false).2 := by
  have hstems := stems_setSlot SameGroup.refl hslot hsame
  unfold report
  split
  · exact ⟨hstems, rfl, rfl, rfl, .inr ⟨child, false, hslot, hpar, rfl, nofun⟩⟩
  · exact ⟨hstems, rfl, rfl, rfl, .inl rfl⟩

theorem Ordered.wait4_spec (h : t.Ordered) (parent : Process) (caller : Nat) (c : WaitCall) :
    Waits parent caller t (t.wait4 parent caller c).2 := by
  unfold wait4
  split
  · exact .refl parent caller t
  split
  case h_1 child hfound =>
    obtain ⟨hslot, hpar, hzombie⟩ := h.findChild_spec hfound
    split
    case isFalse => exact .refl parent caller t
    case isTrue hcopied =>
    rw [processDestroy, if_pos (.inl (beq_iff_eq.mp hzombie)), report, if_pos hcopied]
    exact ⟨stems_clear t child.pid, rfl, rfl, rfl, .inr ⟨child, true, hslot, hpar, rfl,
      fun _ => update_self _ _ _⟩⟩
  iterate 2
    split
    case h_1 child hfound =>
      obtain ⟨hslot, hpar, -⟩ := h.findChild_spec (ite_none_right_eq_some.mp hfound).2
      exact waits_report hslot hpar ⟨⟨rfl, rfl, rfl, rfl⟩, rfl, rfl, fun hlive => hlive⟩
  · exact .refl parent caller t

/-- A pass is for the process that `wait4` was called for; afterwards the thread may be back in
user code. -/
theorem Ordered.pass_spec (h : t.Ordered) (hstep : t.step (.pass caller) = some t') :
    ∃ parent c, t.thread caller = .waiting parent.id c ∧ t.slots parent.pid = some parent ∧
      ∃ s, Waits parent caller t s ∧ (t' = s ∨
        t' = { s with thread := update t.thread caller .user }) := by
  simp only [step] at hstep
  split at hstep
  case h_2 => cases hstep
  case h_1 id c hthread =>
  obtain ⟨parent, hpar, rfl⟩ := map_eq_some_iff.mp hstep
  obtain ⟨hslot, rfl⟩ := h.deref_spec hpar
  have hwaits := h.wait4_spec parent caller c
  refine ⟨parent, c, hthread, hslot, _, hwaits, ?_⟩
  split
  · exact .inl rfl
  · right
    rw [hwaits.thread]

/-- `setpgid` fails, or writes the group of a target that passed the checks. -/
theorem setpgid_spec (t : ProcessTable) (me : Process) (pid pgid : BitVec 64) :
    (t.setpgid me pid pgid).2 = t ∨ ∃ target, t.slots (setpgidTarget me pid) = some target ∧
      0 ≤ t.validateSetpgid me (setpgidTarget me pid) (setpgidGroup me pid pgid) ∧
      (t.setpgid me pid pgid).2 = t.setSlot (setpgidTarget me pid)
        (some { target with pgrp := setpgidGroup me pid pgid }) := by
  unfold setpgid
  dsimp only
  split
  · exact .inl rfl
  case isFalse hret =>
  split
  · exact .inl rfl
  case h_2 target htarget =>
    right
    exact ⟨target, getByPid_eq_some htarget, Int.not_lt.mp hret, rfl⟩

theorem stems_regroup {pgrp sessionId} (hp : t.slots pid = some p) :
    Stems Same t (t.setSlot pid (some { p with pgrp := pgrp, sessionId := sessionId })) :=
  stems_setSlot (fun _ => ⟨rfl, rfl, rfl, rfl⟩) hp ⟨rfl, rfl, rfl, rfl⟩

theorem Stems.same (h : Stems SameGroup t t') : Stems Same t t' := by
  intro i p' hp'
  obtain ⟨p, hp, hsame⟩ := h i p' hp'
  exact ⟨p, hp, hsame.toSame⟩

variable {e : Call}

/-- A step leaves the groups of all processes as they are, makes a process, or is `setpgid`
or `setsid`. -/
theorem Ordered.step_cases (h : t.Ordered) (hstep : t.step e = some t') :
    (Stems SameGroup t t' ∧ t.created ≤ t'.created) ∨
    (∃ me caller pid, e = .fork caller true ∧ t.me = some me ∧ t.allocPid = some pid ∧
      t'.slots = update t.slots pid (some (newProcess t me caller pid)) ∧
      t'.created = t.created + 1) ∨
    (∃ me pid pgid, e = .setpgid pid pgid ∧ t.me = some me ∧ t' = (t.setpgid me pid pgid).2) ∨
    (∃ me, e = .setsid ∧ t.me = some me ∧ t' = (t.setsid me).2) := by
  cases e with
  | fork caller ok =>
    obtain ⟨-, me, hme, rfl⟩ := ite_map_eq_some hstep
    obtain ⟨hslots, hcre, -⟩ | ⟨pid, rfl, halloc, heq⟩ := fork_spec t me caller ok
    · left
      refine ⟨?_, hcre⟩
      intro i p hp
      exact ⟨p, hslots ▸ hp, .refl p⟩
    · right; left
      exact ⟨me, caller, pid, rfl, hme, halloc, by rw [heq], by rw [heq]⟩
  | start pid =>
    left
    obtain ⟨p, -, hp⟩ := bind_eq_some_iff.mp hstep
    obtain ⟨-, rfl⟩ := ite_eq_some hp
    exact ⟨stems_refl t, le_rfl⟩
  | exit code =>
    left
    obtain ⟨me, hme, rfl⟩ := map_eq_some_iff.mp hstep
    exact ⟨stems_setSlot SameGroup.refl (h.deref_spec hme).1 (processExit_same me code), le_rfl⟩
  | stop signum =>
    left
    obtain ⟨me, hme, rfl⟩ := map_eq_some_iff.mp hstep
    exact ⟨stems_setSlot SameGroup.refl (h.deref_spec hme).1 (processStop_same me signum), le_rfl⟩
  | cont =>
    left
    obtain ⟨me, hme, rfl⟩ := map_eq_some_iff.mp hstep
    exact ⟨stems_setSlot SameGroup.refl (h.deref_spec hme).1 (processContinue_same me), le_rfl⟩
  | wait4 caller c =>
    left
    obtain ⟨-, me, -, rfl⟩ := ite_map_eq_some hstep
    exact ⟨stems_refl t, le_rfl⟩
  | pass caller =>
    left
    obtain ⟨parent, c, -, -, s, hwaits, rfl | rfl⟩ := h.pass_spec hstep <;>
      exact ⟨hwaits.stems, hwaits.created.ge⟩
  | setpgid pid pgid =>
    right; right; left
    obtain ⟨me, hme, rfl⟩ := map_eq_some_iff.mp hstep
    exact ⟨me, pid, pgid, rfl, hme, rfl⟩
  | setsid =>
    right; right; right
    obtain ⟨me, hme, rfl⟩ := map_eq_some_iff.mp hstep
    exact ⟨me, rfl, hme, rfl⟩

/-- A new process in a free slot, with a new number. -/
theorem Ordered.fork {me} (h : t.Ordered) (halloc : t.allocPid = some pid)
    (hslots : t'.slots = update t.slots pid (some (newProcess t me caller pid)))
    (hcre : t'.created = t.created + 1) : t'.Ordered := by
  constructor
  case pid =>
    intro i p hp
    obtain ⟨rfl, rfl⟩ | ⟨-, hold⟩ := slots_update hslots hp
    · exact ⟨rfl, (allocPid_spec halloc).2⟩
    · exact h.pid i p hold
  case id =>
    intro i p hp
    rw [hcre]
    obtain ⟨rfl, rfl⟩ | ⟨-, hold⟩ := slots_update hslots hp
    · exact lt_add_one _
    · exact (h.id i p hold).trans (lt_add_one _)
  case unique =>
  intro i j p q hp hq heq
  obtain ⟨rfl, rfl⟩ | ⟨-, hp⟩ := slots_update hslots hp <;>
    obtain ⟨rfl, rfl⟩ | ⟨-, hq⟩ := slots_update hslots hq
  · rfl
  · exact absurd heq (h.id j q hq).ne'
  · exact absurd heq (h.id i p hp).ne
  · exact h.unique i j p q hp hq heq

theorem setpgid_stems (t : ProcessTable) (me : Process) (pid pgid : BitVec 64) :
    Stems Same t (t.setpgid me pid pgid).2 := by
  obtain heq | ⟨target, htarget, -, heq⟩ := setpgid_spec t me pid pgid <;> rw [heq]
  · exact (stems_refl t).same
  · exact stems_regroup htarget

theorem Ordered.step (h : t.Ordered) (hstep : t.step e = some t') : t'.Ordered := by
  obtain ⟨hstems, hcre⟩ | ⟨me, caller, pid, -, -, halloc, hslots, hcre⟩ |
    ⟨me, pid, pgid, -, hme, rfl⟩ | ⟨me, -, hme, rfl⟩ := h.step_cases hstep
  · exact h.stems hstems (fun _ _ => SameGroup.toSame) hcre
  · exact h.fork halloc hslots hcre
  · have hcre : t.created ≤ (t.setpgid me pid pgid).2.created := by
      obtain heq | ⟨target, -, -, heq⟩ := setpgid_spec t me pid pgid
      · rw [heq]
      · rw [heq]; exact le_rfl
    exact h.stems (setpgid_stems t me pid pgid) (fun _ _ hsame => hsame) hcre
  · exact h.stems (stems_regroup (h.deref_spec hme).1) (fun _ _ hsame => hsame) le_rfl

theorem ordered_boot : boot.Ordered := by
  have hcases : ∀ i p, boot.slots i = some p → i < 2 ∧ p.pid = i ∧ p.id = i := by
    intro i p hp
    simp only [boot] at hp
    iterate 2
      split at hp
      case isTrue hi =>
        cases hp
        exact ⟨by omega, hi.symm, hi.symm⟩
    · cases hp
  constructor
  case pid =>
    intro i p hp
    obtain ⟨hlt, hpid, -⟩ := hcases i p hp
    exact ⟨hpid, hlt.trans (by decide)⟩
  case id =>
    intro i p hp
    obtain ⟨hlt, -, hid⟩ := hcases i p hp
    rw [hid]
    exact hlt
  case unique =>
  intro i j p q hp hq heq
  rw [(hcases i p hp).2.2, (hcases j q hq).2.2] at heq
  exact heq

/-- Every process is in the slot of its PID and in no other. -/
theorem ordered_after_run (es : List Call) : ((run step boot es).getD boot).Ordered := by
  cases hrun : run step boot es with
  | none => exact ordered_boot
  | some t => exact run_inv Ordered (fun _ _ _ h => h.step) ordered_boot hrun

end ProcessTable

end Kurios.Proc.Table
