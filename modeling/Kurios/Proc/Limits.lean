import Kurios.Base.Loop
import Kurios.Proc.Creds

/-!
Resource limits: `sys_setrlimit` and `sys_fork_impl` (`kernel/syscall/syscall.c`), and the
limits that `process_create` (`kernel/process/process.c`) gives a new process.

A new process has the default limits, whatever those of its parent are, so a fork can raise a
hard limit (`fork_raises_limit`). Otherwise only root can raise one.

Processes are known by their number. Why a fork fails after the check of `RLIMIT_NPROC` (no
number, no memory, no thread) is not told apart.
-/

namespace Kurios.Proc

open Base Function Option

/-- `struct rlimit`: the soft and the hard limit. -/
structure Rlimit where
  cur : UInt64
  max : UInt64
deriving DecidableEq, Repr

/-- `RLIM_NLIMITS`. -/
def rlimNlimits : Nat := 16

/-- `RLIM_INFINITY`. -/
def rlimInfinity : UInt64 := 0xFFFFFFFFFFFFFFFF

def rlimitStack : Fin 16 := 3
def rlimitNproc : Fin 16 := 6
def rlimitNofile : Fin 16 := 7

/-- `MAX_PROCESSES`. -/
def maxProcesses : Nat := 256

abbrev Limits := Fin 16 → Rlimit

/-- The limits of a new process. -/
def defaultLimits : Limits := fun r =>
  if r = rlimitNofile then ⟨1024, 4096⟩
  else if r = rlimitNproc then ⟨256, 512⟩
  else if r = rlimitStack then ⟨8 * 1024 * 1024, 16 * 1024 * 1024⟩
  else ⟨rlimInfinity, rlimInfinity⟩

/-- The identities and the limits of a process. -/
structure LimitedProcess where
  creds : Creds
  limits : Limits

def einval : Int := -22
def eagain : Int := -11
def efault : Int := -14

/-- `sys_setrlimit`; `new` is what the user's structure holds, if it can be read. -/
def LimitedProcess.setrlimit (p : LimitedProcess) (resource : Nat) (new : Option Rlimit) :
    Int × LimitedProcess :=
  if h : resource < rlimNlimits then
    match new with
    | none => (efault, p)
    | some new =>
      if new.max > (p.limits ⟨resource, h⟩).max ∧ p.creds.isRoot = false then (eperm, p)
      else if new.cur > new.max then (einval, p)
      else (0, { p with limits := update p.limits ⟨resource, h⟩ new })
  else (einval, p)

/-- The process table. `family` are a process and its descendants. -/
structure Family where
  table : Nat → Option LimitedProcess
  family : Finset Nat

namespace Family

/-- The processes of a user. -/
def count (s : Family) (uid : UInt32) : Nat :=
  ((List.range maxProcesses).filter fun pid =>
    (s.table pid).any fun p => p.creds.user.real = uid).length

/-- `sys_fork_impl` of process `parent`: `child` is the number of the new process, or none if
the fork fails. -/
def fork (s : Family) (parent : LimitedProcess) (child : Option Nat) : Int × Family :=
  if s.count parent.creds.user.real ≥ (parent.limits rlimitNproc).cur.toNat then (eagain, s)
  else
    match child with
    | none => (eagain, s)
    | some pid =>
      (pid, { table := update s.table pid (some ⟨parent.creds, defaultLimits⟩)
              family := insert pid s.family })

/-- A call of a process. -/
inductive LimitCall where
  | setrlimit (pid resource : Nat) (new : Option Rlimit)
  | fork (pid : Nat) (child : Option Nat)

/-- The state after a call of a process of the family. The number of a new process is free. -/
def step (s : Family) : LimitCall → Option Family
  | .setrlimit pid resource new =>
    if pid ∈ s.family then
      (s.table pid).map fun p =>
        { s with table := update s.table pid (some (p.setrlimit resource new).2) }
    else none
  | .fork pid child =>
    if pid ∈ s.family ∧ ∀ c ∈ child, s.table c = none then
      (s.table pid).map fun p => (s.fork p child).2
    else none

end Family

/-! ### Limits without root -/

/-- Every hard limit is at most that of `orig`, and every soft limit at most the hard limit. -/
def Limits.Within (limits orig : Limits) : Prop :=
  ∀ r, (limits r).max ≤ (orig r).max ∧ (limits r).cur ≤ (limits r).max
deriving Decidable

/-- The default limits are in order. -/
theorem cur_le_max_defaultLimits (r : Fin 16) : (defaultLimits r).cur ≤ (defaultLimits r).max := by
  revert r
  decide

theorem LimitedProcess.setrlimit_creds (p : LimitedProcess) (resource : Nat) (new : Option Rlimit) :
    (p.setrlimit resource new).2.creds = p.creds := by
  unfold setrlimit
  split
  case isFalse => rfl
  case isTrue =>
  split
  · rfl
  split
  · rfl
  split
  · rfl
  · rfl

variable {orig : Limits}

/-- Without root, `setrlimit` raises no hard limit. -/
theorem LimitedProcess.setrlimit_within {p : LimitedProcess} (h : p.limits.Within orig)
    (hroot : p.creds.isRoot = false) (resource : Nat) (new : Option Rlimit) :
    (p.setrlimit resource new).2.limits.Within orig := by
  unfold setrlimit
  split
  case isFalse => exact h
  case isTrue hresource =>
  split
  · exact h
  case h_2 new =>
  split
  · exact h
  case isFalse hmax =>
  split
  · exact h
  case isFalse hcur =>
  intro r
  by_cases hr : r = ⟨resource, hresource⟩
  · subst hr
    have hle : new.max ≤ (p.limits ⟨resource, hresource⟩).max :=
      UInt64.not_lt.mp fun hlt => hmax ⟨hlt, hroot⟩
    simp only [update_self]
    exact ⟨UInt64.le_trans hle (h _).1, UInt64.not_lt.mp hcur⟩
  · simp only [update_of_ne hr]
    exact h r

namespace Family

/-- The processes of the family are not root, and keep within the limits. -/
def Bounded (orig : Limits) (s : Family) : Prop :=
  ∀ pid ∈ s.family, ∀ p, s.table pid = some p → p.creds.isRoot = false ∧ p.limits.Within orig

/-- A fork is made only if the default limits are within those of the first process. -/
def Careful (orig : Limits) : LimitCall → Prop
  | .setrlimit .. => True
  | .fork .. => ∀ r, (defaultLimits r).max ≤ (orig r).max

instance (orig : Limits) (call : LimitCall) : Decidable (Careful orig call) := by
  cases call <;> unfold Careful <;> infer_instance

theorem Bounded.step {s s' : Family} (h : s.Bounded orig) {call : LimitCall}
    (hcare : Careful orig call) (hstep : s.step call = some s') : s'.Bounded orig := by
  cases call with
  | setrlimit pid resource new =>
    obtain ⟨hpid, p, hp, rfl⟩ := ite_map_eq_some hstep
    obtain ⟨hroot, hwithin⟩ := h pid hpid p hp
    intro pid' hpid' p' hp'
    by_cases heq : pid' = pid
    · subst heq
      simp only [update_self, some.injEq] at hp'
      subst hp'
      rw [LimitedProcess.setrlimit_creds]
      exact ⟨hroot, LimitedProcess.setrlimit_within hwithin hroot resource new⟩
    · simp only [update_of_ne heq] at hp'
      exact h pid' hpid' p' hp'
  | fork pid child =>
    obtain ⟨⟨hpid, hfree⟩, p, hp, rfl⟩ := ite_map_eq_some hstep
    obtain ⟨hroot, -⟩ := h pid hpid p hp
    unfold Family.fork
    split
    · exact h
    cases child with
    | none => exact h
    | some c =>
      intro pid' hpid' p' hp'
      by_cases heq : pid' = c
      · subst heq
        simp only [update_self, some.injEq] at hp'
        subst hp'
        exact ⟨hroot, fun r => ⟨hcare r, cur_le_max_defaultLimits r⟩⟩
      · simp only [update_of_ne heq] at hp'
        exact h pid' (Finset.mem_of_mem_insert_of_ne hpid' heq) p' hp'

/-- The hard limits of a process that is not root, and of its descendants, do not rise in any
run of `setrlimit` and `fork` calls in which a fork is made only if the default limits are
within those of the first process. -/
theorem limits_within_after_run {s₀ s : Family} {first : Nat} {p : LimitedProcess}
    (hfirst : s₀.table first = some p) (hfamily : s₀.family = {first})
    (hroot : p.creds.user.effective ≠ 0) (hsoft : ∀ r, (p.limits r).cur ≤ (p.limits r).max)
    {calls : List LimitCall}
    (hrun : GuardedRun step (fun _ call => Careful p.limits call) s₀ calls s) :
    ∀ pid ∈ s.family, ∀ q, s.table pid = some q → q.limits.Within p.limits := by
  have hstart : s₀.Bounded p.limits := by
    intro pid hpid q hq
    rw [hfamily, Finset.mem_singleton] at hpid
    subst hpid
    rw [hfirst] at hq
    cases hq
    exact ⟨decide_eq_false hroot, fun r => ⟨UInt64.le_refl _, hsoft r⟩⟩
  have hbounded := hrun.inv (Bounded p.limits)
    (fun _ _ _ h => h.step) hstart
  exact fun pid hpid q hq => (hbounded pid hpid q hq).2

/-- A process of user 1000. -/
def userProcess (limits : Limits) : LimitedProcess :=
  ⟨⟨⟨1000, 1000, 1000⟩, ⟨100, 100, 100⟩⟩, limits⟩

/-- Process 5 and nothing else. -/
def single (limits : Limits) : Family where
  table pid := if pid = 5 then some (userProcess limits) else none
  family := {5}

/-- A process lowers a limit, and its child tries to raise one. -/
def lowerAndFork : List LimitCall :=
  [.setrlimit 5 0 (some ⟨10, 20⟩), .fork 5 (some 6), .setrlimit 6 7 (some ⟨5000, 5000⟩)]

theorem limits_within_after_lowerAndFork :
    ∃ s, GuardedRun step (fun _ call => Careful defaultLimits call) (single defaultLimits)
      lowerAndFork s ∧ 6 ∈ s.family ∧
        ∀ pid ∈ s.family, ∀ q, s.table pid = some q → q.limits.Within defaultLimits := by
  apply exists_and_of (by decide +kernel)
  intro s hrun _
  exact limits_within_after_run (p := userProcess defaultLimits) rfl rfl (by decide)
    cur_le_max_defaultLimits hrun

/-- The limits of a process that has set that for processor time to 20 seconds. -/
def loweredLimits : Limits := update defaultLimits 0 ⟨10, 20⟩

/-- The child of a process with a lowered limit has none. -/
theorem fork_raises_limit :
    (∀ r, (loweredLimits r).cur ≤ (loweredLimits r).max) ∧
      (((single loweredLimits).step (.fork 5 (some 6))).bind fun s => s.table 6).map
        (fun q => (q.creds.isRoot, (q.limits 0).max)) = some (false, rlimInfinity) ∧
      (loweredLimits 0).max = 20 := by
  decide +kernel

end Family

end Kurios.Proc
