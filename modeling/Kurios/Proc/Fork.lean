import Kurios.Areas.Clone
import Kurios.Fs.Files
import Kurios.Proc.Limits
import Kurios.Signal.Defs

/-!
What a child inherits by `fork` (`sys_fork_impl` in `kernel/syscall/syscall.c`).

`process_create` makes the child with the defaults of a new process; from the parent it only
takes the session and the identities. `sys_fork_impl` then puts a copy of the address space
and of the descriptor table in their place, and nothing else: `signal_state_clone` is not
called, and the working directory, the umask, the limits, the signal actions and mask, the
group and the program break stay those of a new process (`fork_forgets`). `as_clone` goes on
without areas if there is no memory for them. `fork_inherits_iff` says when the child has
what the parent has.

The calls that a process makes are those that change what is inherited. `setpgid` comes with
the group that it stores, `open` with the file.
-/

namespace Kurios.Proc.Fork

open Base Areas Function Option
open Fs (fdMax)
open Signal (SignalState signalStateInit sigaddset)

/-! ### Descriptors -/

/-- `fd_entry_t`. -/
structure FdEntry where
  file : Option Nat
  flags : BitVec 32
deriving DecidableEq, Repr

/-- `fd_table_t`. -/
abbrev FdTable := Nat → FdEntry

/-- `fd_table_create`. -/
def fdTableCreate : FdTable := fun _ => ⟨none, 0⟩

variable (fds : FdTable)

/-- `fd_table_alloc`. The limit is cast to `int`. -/
def fdTableAlloc (limit : UInt64) (file : Nat) (flags : BitVec 32) : FdTable :=
  let openCount : Int := ((List.range fdMax).filter fun i => (fds i).file.isSome).length
  if (limit.toBitVec.setWidth 32).toInt ≤ openCount then fds
  else match (List.range fdMax).find? fun i => (fds i).file.isNone with
    | some i => update fds i ⟨some file, flags⟩
    | none => fds

/-- `fd_table_free`. -/
def fdTableFree (fd : Nat) : FdTable := update fds fd ⟨none, 0⟩

/-- An argument, cast to `int`, as an index. -/
def fdIndex (fd : BitVec 64) : Option Nat :=
  if (fd.setWidth 32).toNat < fdMax then some (fd.setWidth 32).toNat else none

/-- The file behind an argument. -/
def fileOf (fd : BitVec 64) : Option (Nat × Nat) :=
  (fdIndex fd).bind fun i => (fds i).file.map fun file => (i, file)

/-- `sys_dup`. -/
def sysDup (limit : UInt64) (oldfd : BitVec 64) : FdTable :=
  if oldfd < 3 then fds
  else match fileOf fds oldfd with
    | some (_, file) => fdTableAlloc fds limit file 0
    | none => fds

/-- `sys_dup2`. -/
def sysDup2 (oldfd newfd : BitVec 64) : FdTable :=
  if newfd < 3 ∨ oldfd < 3 then fds
  else match fileOf fds oldfd, fdIndex newfd with
    | some (old, file), some new =>
      if old = new then fds else update fds new ⟨some file, 0⟩
    | _, _ => fds

/-- `sys_close`. -/
def sysClose (fd : BitVec 64) : FdTable :=
  if fd ≤ 2 ∨ fdMax ≤ fd.toNat then fds else fdTableFree fds fd.toNat

/-- `sys_fcntl` with `F_SETFD`; only the flag `FD_CLOEXEC` is kept. -/
def fcntlSetfd (fd arg : BitVec 64) : FdTable :=
  match fileOf fds fd with
  | some (i, file) => update fds i ⟨some file, (arg &&& 1).setWidth 32⟩
  | none => fds

/-- The body of the loop of `fd_table_clone`. -/
def cloneEntry (src : FdTable) (fd : Nat) (dst : FdTable) : FdTable :=
  if (src fd).file.isSome then update dst fd (src fd) else dst

/-- `fd_table_clone`. -/
def fdTableClone (src : FdTable) : FdTable := forRange 0 fdMax (cloneEntry src) fdTableCreate

/-! ### Processes and their calls -/

/-- The fields of `process_t` that `fork` is about. `areas` is the VMA list of the address
space, `none` for `NULL`. -/
structure Attributes where
  pid : Nat
  cwd : List Char
  umask : BitVec 32
  limited : LimitedProcess
  signals : SignalState
  pgrp : Nat
  sessionId : Nat
  brk : BitVec 64
  fds : FdTable
  areas : Option VmaHistory

/-- `RLIMIT_AS`. -/
def rlimitAs : Fin 16 := ⟨9, by decide⟩

namespace Attributes

/-- `process_create` by a process with these identities and session; `stdio` and `areas` are
the tables that it is given. -/
def processCreate (creds : Creds) (sessionId pid : Nat) (stdio : FdTable)
    (areas : Option VmaHistory) : Attributes where
  pid := pid
  cwd := ['/']
  umask := 0o022
  limited := ⟨creds, defaultLimits⟩
  signals := signalStateInit
  pgrp := pid
  sessionId := sessionId
  brk := 0x10000000
  fds := stdio
  areas := areas

/-- What the allocators answer during `fork`: `created` is about the VMA list, `allocs` about
its nodes, in the memory `nodes`, and `succeeds` about everything else. -/
structure ForkEnv where
  succeeds : Bool
  stdio : FdTable
  created : Bool
  allocs : List (Option Nat)
  nodes : Nat → Vma

/-- The VMA list of `as_clone`: the copy, even if there is none, or for a process without a
list the one that `as_create` has made. -/
def cloneAreas (areas : Option VmaHistory) (env : ForkEnv) : Option (Option VmaHistory) :=
  match areas with
  | none => some (if env.created then some ⟨vmaListCreate env.nodes, []⟩ else none)
  | some h => (vmaListClone h.state env.created env.allocs).map fun copy =>
    copy.map fun s => ⟨s, s.nodes.getD []⟩

/-- `sys_fork_impl`: the child. -/
def fork (parent : Attributes) (pid : Nat) (env : ForkEnv) : Option Attributes :=
  if env.succeeds then
    let child := processCreate parent.limited.creds parent.sessionId pid env.stdio none
    (cloneAreas parent.areas env).map fun areas =>
      { child with areas := areas, fds := fdTableClone parent.fds }
  else none

/-- The calls of a process, and a signal that is sent to it. -/
inductive Call where
  | chdir (path : List Char)
  | umask (mask : BitVec 64)
  | setrlimit (resource : Nat) (new : Option Rlimit)
  | sigaction (mem : Buffer) (signum act oldact : Word)
  | sigprocmask (mem : Buffer) (how set oldset : Word)
  | signalled (signum : Nat)
  | setpgid (pgrp : Nat)
  | setsid
  | brk (brk : BitVec 64)
  | creds (c : CredCall)
  | open (file : Nat)
  | dup (oldfd : BitVec 64)
  | dup2 (oldfd newfd : BitVec 64)
  | close (fd : BitVec 64)
  | setfd (fd arg : BitVec 64)
  | mmap (c : MmapCall)
  | munmap (vma : Nat)

/-- `sys_brk`. -/
def sysBrk (p : Attributes) (brk : BitVec 64) : Attributes :=
  if brk < 0x10000000 ∨ 0x80000000 < brk then p else { p with brk := brk }

/-- The task that a call on signals is made by. -/
def task (p : Attributes) (mem : Buffer) : Signal.Task :=
  ⟨Signal.Frame.ofWords [], mem, p.signals⟩

def step (p : Attributes) : Call → Option Attributes
  | .chdir path => some { p with cwd := path.take 255 }
  | .umask mask => some { p with umask := (mask &&& 0o777).setWidth 32 }
  | .setrlimit resource new => some { p with limited := (p.limited.setrlimit resource new).2 }
  | .sigaction mem signum act oldact =>
    some { p with signals := (Signal.sysSigaction (p.task mem) signum act oldact).1.signals }
  | .sigprocmask mem how set oldset =>
    some { p with signals := (Signal.sysSigprocmask (p.task mem) how set oldset).1.signals }
  | .signalled signum => some { p with signals.pending := sigaddset p.signals.pending signum }
  | .setpgid pgrp => some { p with pgrp := pgrp }
  | .setsid => some { p with pgrp := p.pid, sessionId := p.pid }
  | .brk brk => some (p.sysBrk brk)
  | .creds c => some { p with limited.creds := p.limited.creds.step c }
  | .open file =>
    some { p with fds := fdTableAlloc p.fds (p.limited.limits rlimitNofile).cur file 0 }
  | .dup oldfd => some { p with fds := sysDup p.fds (p.limited.limits rlimitNofile).cur oldfd }
  | .dup2 oldfd newfd => some { p with fds := sysDup2 p.fds oldfd newfd }
  | .close fd => some { p with fds := sysClose p.fds fd }
  | .setfd fd arg => some { p with fds := fcntlSetfd p.fds fd arg }
  | .mmap c => do
    let h ← p.areas
    let c := { c with limit := (p.limited.limits rlimitAs).cur.toBitVec }
    if h.Fresh c.alloc then
      let (_, h) ← sysMmap h c
      return { p with areas := some h }
    else none
  | .munmap vma => do
    let h ← p.areas
    let h ← h.step (.destroy vma)
    return { p with areas := some h }

/-- The nodes that the slab cache hands out are not in use. -/
def ForkEnv.Fresh (env : ForkEnv) (parent : Attributes) : Prop :=
  FreshNodes ((parent.areas.map (·.live)).getD []) env.allocs

/-- Init, whose program break is the end of its program, and every process that a process of the
system forks, with the calls that it makes. -/
inductive Reachable : Attributes → Prop
  | init (stdio : FdTable) (nodes : Nat → Vma) (created : Bool) (endAddr : BitVec 64) :
      Reachable { processCreate ⟨⟨0, 0, 0⟩, ⟨0, 0, 0⟩⟩ 0 1 stdio
        (if created then some ⟨vmaListCreate nodes, []⟩ else none) with brk := endAddr }
  | call {p p' : Attributes} {c : Call} (hp : Reachable p) (hstep : p.step c = some p') :
      Reachable p'
  | fork {p p' : Attributes} {pid : Nat} {env : ForkEnv} (hp : Reachable p)
      (hfresh : env.Fresh p) (hfork : p.fork pid env = some p') : Reachable p'

/-! ### The copies -/

theorem cloneEntry_apply (src dst : FdTable) (fd i : Nat) :
    cloneEntry src fd dst i = if i = fd ∧ (src i).file.isSome then src i else dst i := by
  unfold cloneEntry
  by_cases hi : i = fd
  case pos =>
    subst hi
    by_cases hopen : (src i).file.isSome
    · rw [if_pos hopen, update_self, if_pos ⟨rfl, hopen⟩]
    · rw [if_neg hopen, if_neg fun h => hopen h.2]
  case neg =>
  split
  · rw [update_of_ne hi, if_neg fun h => hi h.1]
  · rw [if_neg fun h => hi h.1]

/-- The open descriptors are copied with their flags. -/
theorem fdTableClone_apply (src : FdTable) (i : Nat) :
    fdTableClone src i = if i < fdMax ∧ (src i).file.isSome then src i else ⟨none, 0⟩ := by
  refine forRange_inv (fun n (fds : FdTable) =>
    fds i = if i < n ∧ (src i).file.isSome then src i else ⟨none, 0⟩) zero_le ?_ ?_
  · rfl
  intro n fds _ _ hfds
  rw [cloneEntry_apply, hfds]
  by_cases hopen : (src i).file.isSome
  case neg => simp [hopen]
  case pos =>
  simp only [hopen, and_true]
  split
  · rw [if_pos (by omega)]
  · split
    · rw [if_pos (by omega)]
    · rw [if_neg (by omega)]

/-- The areas of a VMA list; a process without a list has none. -/
def areaList (areas : Option VmaHistory) : Option (List Area) :=
  match areas with
  | none => some []
  | some h => h.state.areas

/-- The VMA list is in order, with its areas in 64 bits. -/
structure ListInv (h : VmaHistory) (xs : List Nat) : Prop extends h.Inv xs where
  bound : ∀ q ∈ xs, (h.state.area q).stop < 2 ^ 64

def Listed (areas : Option VmaHistory) : Prop := ∀ h, areas = some h → ∃ xs, ListInv h xs

theorem listInv_empty (nodes : Nat → Vma) : ListInv ⟨vmaListCreate nodes, []⟩ [] :=
  ⟨⟨VmaInv.empty nodes, List.Perm.nil⟩, nofun⟩

/-- Memory for the copy of a list with these areas. -/
def ForkEnv.Supplies (env : ForkEnv) (areas : Option (List Area)) : Prop :=
  areas = some [] ∨ (env.created && supplied ((areas.getD []).length) env.allocs) = true

/-- The child's list is in order; it has the parent's areas if there is memory for them, and
only then. -/
theorem Listed.cloneAreas {areas areas' env} (h : Listed areas)
    (hfresh : FreshNodes ((areas.map (·.live)).getD []) env.allocs)
    (hclone : Attributes.cloneAreas areas env = some areas') :
    Listed areas' ∧ (areaList areas' = areaList areas ↔ env.Supplies (areaList areas)) := by
  cases areas with
  | none =>
    cases hclone
    constructor
    · intro h' hareas
      obtain ⟨-, rfl⟩ := ite_eq_some hareas
      exact ⟨[], listInv_empty env.nodes⟩
    refine iff_of_true ?_ (.inl rfl)
    split
    · exact VmaInv.areas_eq (VmaInv.empty env.nodes)
    · rfl
  | some old =>
    obtain ⟨xs, hinv⟩ := h old rfl
    obtain ⟨copy, hcopy, rfl⟩ := map_eq_some_iff.mp hclone
    have hold : areaList (some old) = some (xs.map old.state.area) := VmaInv.areas_eq hinv.list
    have hnodes : FreshNodes xs env.allocs := by
      refine ⟨?_, hfresh.distinct⟩
      intro p hp
      obtain ⟨hlive, hheap⟩ := hfresh.free p hp
      exact ⟨fun hin => hlive (hinv.perm.mem_iff.mp hin), hheap⟩
    have hspec := hinv.list.vmaListClone_spec hinv.bound hnodes env.created
    rw [hold]
    split at hspec
    case isTrue hmemory =>
      obtain ⟨dst, ys, heq, hlist, hareas, -⟩ := hspec
      obtain rfl : copy = some dst := some.inj (hcopy.symm.trans heq)
      constructor
      · rintro h' ⟨⟩
        refine ⟨ys, ⟨hlist, ?_⟩, ?_⟩
        · show ys.Perm (dst.nodes.getD [])
          rw [hlist.nodes_eq]
          exact List.Perm.refl ys
        intro q hq
        have hmem := hareas ▸ List.mem_map_of_mem hq
        obtain ⟨x, hx, harea⟩ := List.mem_map.mp hmem
        rw [← harea]
        exact hinv.bound x hx
      refine iff_of_true ?_ (.inr ?_)
      · rw [← hareas]
        exact VmaInv.areas_eq hlist
      · rw [getD_some, List.length_map]
        exact hmemory
    case isFalse hmemory =>
    obtain rfl : copy = none := some.inj (hcopy.symm.trans hspec)
    refine ⟨nofun, ?_⟩
    constructor
    · intro heq
      exact .inl heq.symm
    rintro (hemp | hsupplied)
    · exact hemp.symm
    · rw [getD_some, List.length_map] at hsupplied
      exact absurd hsupplied hmemory

theorem Listed.call {p p' : Attributes} {c : Call} (h : Listed p.areas)
    (hstep : p.step c = some p') : Listed p'.areas := by
  cases c with
  | mmap c =>
    obtain ⟨old, hold, hstep⟩ := bind_eq_some_iff.mp hstep
    obtain ⟨hfresh, hstep⟩ := ite_none_right_eq_some.mp hstep
    obtain ⟨⟨r, new⟩, hmmap, ⟨⟩⟩ := bind_eq_some_iff.mp hstep
    obtain ⟨xs, hinv⟩ := h old hold
    rintro new ⟨⟩
    obtain ⟨e, heq⟩ | ⟨addr, file, vma, h', l, r, heq, -, -, hxs, hinv', harea, hsame⟩ :=
      hinv.toInv.sysMmap hfresh <;> obtain ⟨-, rfl⟩ := Prod.mk.inj (some.inj (hmmap.symm.trans heq))
    · exact ⟨xs, hinv⟩
    refine ⟨l ++ vma :: r, hinv', ?_⟩
    intro q hq
    obtain rfl | hq := List.mem_cons.mp (List.perm_middle.mem_iff.mp hq)
    · rw [harea]
      exact alignUp_lt _
    · rw [hsame q (hxs ▸ hq)]
      exact hinv.bound q (hxs ▸ hq)
  | munmap vma =>
    obtain ⟨old, hold, hstep⟩ := bind_eq_some_iff.mp hstep
    obtain ⟨new, hdes, ⟨⟩⟩ := bind_eq_some_iff.mp hstep
    obtain ⟨xs, hinv⟩ := h old hold
    rintro new ⟨⟩
    obtain ⟨hmem, rfl⟩ := ite_eq_some hdes
    have hvma : vma ∈ xs := hinv.perm.mem_iff.mpr hmem
    refine ⟨xs.erase vma, ⟨hinv.list.destroy hvma, hinv.perm.erase vma⟩, ?_⟩
    intro q hq
    have harea : (vmaDestroy old.state vma).area q = old.state.area q := by
      simp [vmaDestroy]
    rw [harea]
    exact hinv.bound q (List.mem_of_mem_erase hq)
  | brk brk =>
    cases hstep
    unfold sysBrk
    split <;> exact h
  | _ =>
    cases hstep
    exact h

theorem Reachable.listed {p : Attributes} (hp : Reachable p) : Listed p.areas := by
  induction hp with
  | init stdio nodes created endAddr =>
    intro h hareas
    obtain ⟨-, rfl⟩ := ite_eq_some hareas
    exact ⟨[], listInv_empty nodes⟩
  | call hp hstep ih => exact ih.call hstep
  | fork hp hfresh hfork ih =>
    obtain ⟨-, areas, hclone, rfl⟩ := ite_map_eq_some hfork
    exact (ih.cloneAreas hfresh hclone).1

/-! ### Inheritance -/

/-- What the child should have: all that the parent has, without its pending signals. -/
structure Inherits (parent child : Attributes) : Prop where
  cwd : child.cwd = parent.cwd
  umask : child.umask = parent.umask
  limits : child.limited.limits = parent.limited.limits
  actions : child.signals.actions = parent.signals.actions
  blocked : child.signals.blocked = parent.signals.blocked
  pgrp : child.pgrp = parent.pgrp
  sessionId : child.sessionId = parent.sessionId
  brk : child.brk = parent.brk
  creds : child.limited.creds = parent.limited.creds
  fds : ∀ fd < fdMax, (child.fds fd).file = (parent.fds fd).file ∧
    ((parent.fds fd).file ≠ none → (child.fds fd).flags = (parent.fds fd).flags)
  areas : areaList child.areas = areaList parent.areas
  pending : child.signals.pending = 0

/-- The parent has changed nothing that `fork` forgets. -/
structure Untouched (parent : Attributes) (pid : Nat) : Prop where
  cwd : parent.cwd = ['/']
  umask : parent.umask = 0o022
  limits : parent.limited.limits = defaultLimits
  actions : parent.signals.actions = signalStateInit.actions
  blocked : parent.signals.blocked = 0
  pgrp : parent.pgrp = pid
  brk : parent.brk = 0x10000000

/-- The child inherits everything exactly if the parent has the working directory, umask,
limits, signal actions, signal mask and program break of a new process, is in the group with
the child's PID, and there is memory for the child's areas. -/
theorem fork_inherits_iff {parent child : Attributes} {pid : Nat} {env : ForkEnv}
    (hparent : Reachable parent) (hfresh : env.Fresh parent)
    (hfork : parent.fork pid env = some child) :
    Inherits parent child ↔ Untouched parent pid ∧ env.Supplies (areaList parent.areas) := by
  obtain ⟨-, areas, hclone, rfl⟩ := ite_map_eq_some hfork
  have hareas := (hparent.listed.cloneAreas hfresh hclone).2
  constructor
  case mp =>
    intro h
    refine ⟨⟨?_, ?_, ?_, ?_, ?_, ?_, ?_⟩, hareas.mp h.areas⟩
    · exact h.cwd.symm
    · exact h.umask.symm
    · exact h.limits.symm
    · exact h.actions.symm
    · exact h.blocked.symm
    · exact h.pgrp.symm
    · exact h.brk.symm
  case mpr =>
  rintro ⟨h, hsupplies⟩
  constructor
  case cwd => exact h.cwd.symm
  case umask => exact h.umask.symm
  case limits => exact h.limits.symm
  case actions => exact h.actions.symm
  case blocked => exact h.blocked.symm
  case pgrp => exact h.pgrp.symm
  case sessionId => rfl
  case brk => exact h.brk.symm
  case creds => rfl
  case fds =>
    intro fd hfd
    dsimp only
    rw [fdTableClone_apply]
    cases hfile : (parent.fds fd).file with
    | none => simp
    | some file => simp [hfile, hfd]
  case areas => exact hareas.mpr hsupplies
  case pending => rfl

/-- A process that `process_create` made for init, with an empty VMA list. -/
def initProcess : Attributes :=
  processCreate ⟨⟨0, 0, 0⟩, ⟨0, 0, 0⟩⟩ 0 1 fdTableCreate
    (some ⟨vmaListCreate fun _ => ⟨0, 0, 0, 0, none, none, none, 0⟩, []⟩)

/-- There is memory for everything. -/
def enough : ForkEnv :=
  { succeeds := true, stdio := fdTableCreate, created := true, allocs := []
    nodes := fun _ => ⟨0, 0, 0, 0, none, none, none, 0⟩ }

theorem enough_fresh (p : Attributes) : enough.Fresh p := ⟨nofun, List.nodup_nil⟩

/-- Init opens two files, marks one close-on-exec, and is in group 2. -/
def opened : List Call := [.open 7, .open 8, .setfd 1 1, .setpgid 2, .signalled 2]

def initOpened : Attributes := (run step initProcess opened).getD initProcess

/-- The child with PID 2 inherits everything. -/
theorem fork_inherits_opened : ∃ parent child, Reachable parent ∧ enough.Fresh parent ∧
      parent.fork 2 enough = some child ∧ Inherits parent child ∧ child.fds 1 = ⟨some 8, 1⟩ := by
  have hrun : run step initProcess opened = some initOpened := rfl
  have hparent : Reachable initOpened :=
    run_inv Reachable (fun _ _ _ => .call) (.init _ _ true 0x10000000) hrun
  have hfork : initOpened.fork 2 enough = some _ := rfl
  have hchanged : Untouched initOpened 2 ∧ enough.Supplies (areaList initOpened.areas) :=
    ⟨⟨rfl, rfl, rfl, rfl, rfl, rfl, rfl⟩, .inl rfl⟩
  exact ⟨initOpened, _, hparent, enough_fresh _, hfork,
    (fork_inherits_iff hparent (enough_fresh _) hfork).mpr hchanged, by decide +kernel⟩

/-- Init changes all that a process can change. -/
def changed : List Call :=
  [.chdir ['/', 't', 'm', 'p'], .umask 0o077, .setrlimit 0 (some ⟨10, 20⟩),
    .sigaction (fun _ => 16) 10 4096 0, .sigprocmask (fun _ => 1) 0 4096 0, .brk 0x20000000]

/-- The child of init has none of the changes, and a group of its own. -/
theorem fork_forgets :
    ((run step initProcess changed).any fun parent => (parent.fork 2 enough).any fun child =>
      child.cwd != parent.cwd && child.umask != parent.umask &&
      child.limited.limits 0 != parent.limited.limits 0 &&
      child.signals.actions 10 != parent.signals.actions 10 &&
      child.signals.blocked != parent.signals.blocked && child.pgrp != parent.pgrp &&
      child.brk != parent.brk) = true := by
  decide +kernel

end Attributes

end Kurios.Proc.Fork
