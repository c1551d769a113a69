import Kurios.Base.Count
import Kurios.Base.Loop

/-!
Open files: the descriptor tables of `kernel/fs/fd_table.c`, and the `file_t` objects
that `vfs_open`, `vfs_close`, `vfs_dup` and `vfs_dup2` (`kernel/fs/vfs.c`), `pipe_create`
(`kernel/fs/pipe.c`), `sys_fcntl` (`kernel/syscall/syscall.c`) and `setup_stdio`
(`kernel/process/process.c`) make, share and release.

A `file_t` comes from the slab cache `file_cache` (`vfs_open`) or from `kmalloc` (pipes,
standard input and output). `vfs_close` releases it to the cache and `fd_table_destroy`
with `kfree`, wherever it came from; the former does so without a look at `ref_count`.

Counters are unbounded integers. The reference counts of the nodes themselves, and the
buffers of pipes, are left out.
-/

namespace Kurios.Fs

open Base Function

/-- `FD_MAX`, which is also `VFS_MAX_FDS`. -/
def fdMax : Nat := 256

/-- Where a `file_t` comes from or goes to: `file_cache`, or `kmalloc` and `kfree`. -/
inductive Allocator where
  | cache
  | heap
deriving DecidableEq, Repr

/-- `file_t`, and where it was obtained. -/
structure File where
  node : Nat
  refCount : Nat
  origin : Allocator
deriving DecidableEq, Repr

/-- The release of a `file_t`: where it was obtained and where it went. -/
structure Release where
  obtained : Allocator
  returned : Allocator
deriving DecidableEq, Repr

/-- `live` are the addresses of the existing `file_t` objects, `entry (t, fd)` is the file of
descriptor `fd` in the table at `t`. Releases of what is not a `file_t` are counted in
`stray`. -/
structure FileState where
  tables : Finset Nat
  entry : Nat × Nat → Option Nat
  live : Finset Nat
  file : Nat → File
  openCount : Nat → Int
  released : List Release
  stray : Nat

variable (s : FileState)

namespace FileState

def setEntry (k : Nat × Nat) (f : Option Nat) : FileState :=
  { s with entry := update s.entry k f }

def setRefCount (f : Nat) (n : Nat) : FileState :=
  { s with file := update s.file f { s.file f with refCount := n } }

def setOpen (node : Nat) (n : Int) : FileState :=
  { s with openCount := update s.openCount node n }

def addOpen (node : Nat) (n : Int) : FileState :=
  s.setOpen node (s.openCount node + n)

/-- A `file_t` from an allocator. -/
def obtain (f : Nat) (file : File) : FileState :=
  { s with live := insert f s.live, file := update s.file f file }

/-- `kmem_cache_free` or `kfree` of a `file_t`. -/
def release (f : Nat) (returned : Allocator) : FileState :=
  if f ∈ s.live then
    { s with live := s.live.erase f, released := ⟨(s.file f).origin, returned⟩ :: s.released }
  else { s with stray := s.stray + 1 }

end FileState

/-! ### Descriptor tables -/

/-- `fd_table_get`. -/
def fdTableGet (t fd : Nat) : Option Nat :=
  if fd < fdMax then s.entry (t, fd) else none

/-- The number of open descriptors, which `fd_table_alloc` compares with the limit. -/
def openEntries (t : Nat) : Nat :=
  ((List.range fdMax).filter fun fd => (s.entry (t, fd)).isSome).length

/-- The descriptor that `fd_table_alloc` gives out, where `limit` is `RLIMIT_NOFILE` of the
process. -/
def freeFd (t limit : Nat) : Option Nat :=
  if openEntries s t ≥ limit then none
  else (List.range fdMax).find? fun fd => (s.entry (t, fd)).isNone

/-- `fd_table_alloc`. -/
def fdTableAlloc (t f limit : Nat) : Option (Nat × FileState) :=
  (freeFd s t limit).map fun fd => (fd, s.setEntry (t, fd) (some f))

/-- `fd_table_alloc_at`. -/
def fdTableAllocAt (t fd f : Nat) : Option FileState :=
  if fd ≥ fdMax ∨ (s.entry (t, fd)).isSome then none
  else some (s.setEntry (t, fd) (some f))

/-- `fd_table_create`. -/
def fdTableCreate (t : Nat) : FileState :=
  { s with
    tables := insert t s.tables
    entry := fun k => if k.1 = t then none else s.entry k }

/-- One iteration of `fd_table_clone`. -/
def cloneEntry (src dst : Nat) (fd : Nat) (s : FileState) : FileState :=
  match s.entry (src, fd) with
  | none => s
  | some f => (s.setEntry (dst, fd) (some f)).setRefCount f ((s.file f).refCount + 1)

/-- `fd_table_clone`. -/
def fdTableClone (src dst : Nat) : FileState :=
  forRange 0 fdMax (cloneEntry src dst) (fdTableCreate s dst)

/-- What `fd_table_destroy` does with a file whose entry it has cleared. -/
def putFile (f : Nat) : FileState :=
  let s := if 0 < (s.file f).refCount then s.setRefCount f ((s.file f).refCount - 1) else s
  if (s.file f).refCount = 0 then (s.addOpen (s.file f).node (-1)).release f .heap else s

/-- One iteration of `fd_table_destroy`. -/
def destroyEntry (t : Nat) (fd : Nat) (s : FileState) : FileState :=
  match s.entry (t, fd) with
  | none => s
  | some f => putFile (s.setEntry (t, fd) none) f

/-- `fd_table_destroy`; a table has one user. -/
def fdTableDestroy (t : Nat) : FileState :=
  let s := forRange 0 fdMax (destroyEntry t) s
  { s with tables := s.tables.erase t }

/-! ### Opening and closing -/

/-- `vfs_open` once the node is found and the permissions are checked: `f` is what the cache
gives, and `opened` says whether the node's own open function succeeds. -/
def vfsOpen (t f node limit : Nat) (opened : Bool) : FileState :=
  let s := s.obtain f ⟨node, 1, .cache⟩
  match fdTableAlloc s t f limit with
  | none => s.release f .cache
  | some (fd, s) =>
    if opened then s.addOpen node 1 else (s.setEntry (t, fd) none).release f .cache

/-- One iteration of `setup_stdio`. -/
def stdioEntry (t node fd f : Nat) : FileState :=
  let s := (s.obtain f ⟨node, 1, .heap⟩).addOpen node 1
  match fdTableAllocAt s t fd f with
  | none => s.release f .heap
  | some s => s

/-- `setup_stdio` from descriptor `fd` on, with the files `kmalloc` gives. -/
def setupStdio (s : FileState) (t node : Nat) : Nat → List Nat → FileState
  | _, [] => s
  | fd, f :: fs => setupStdio (stdioEntry s t node fd f) t node (fd + 1) fs

/-- `pipe_create` once everything is allocated: two new nodes and two new files. -/
def pipeCreate (t rfile wfile rnode wnode limit : Nat) : FileState :=
  let s := (s.setOpen rnode 0).setOpen wnode 0
  let s := (s.obtain rfile ⟨rnode, 1, .heap⟩).obtain wfile ⟨wnode, 1, .heap⟩
  match fdTableAlloc s t rfile limit with
  | none => (s.release wfile .heap).release rfile .heap
  | some (rfd, s) =>
    match fdTableAlloc s t wfile limit with
    | none => ((s.setEntry (t, rfd) none).release wfile .heap).release rfile .heap
    | some (_, s) => s

/-- `vfs_close`. The reference count is not looked at. -/
def vfsClose (t fd : Nat) : FileState :=
  match fdTableGet s t fd with
  | none => s
  | some f => ((s.addOpen (s.file f).node (-1)).release f .cache).setEntry (t, fd) none

/-- `vfs_dup`. -/
def vfsDup (t old limit : Nat) : FileState :=
  match fdTableGet s t old with
  | none => s
  | some f =>
    let n := (s.file f).refCount
    let s := s.setRefCount f (n + 1)
    match fdTableAlloc s t f limit with
    | none => s.setRefCount f n
    | some (_, s) => s

/-- `vfs_dup2`. -/
def vfsDup2 (t old new : Nat) : FileState :=
  if old ≥ fdMax ∨ new ≥ fdMax ∨ old = new then s else
  match fdTableGet s t old with
  | none => s
  | some f =>
    let s := vfsClose s t new
    let n := (s.file f).refCount
    let s := s.setRefCount f (n + 1)
    match fdTableAllocAt s t new f with
    | none => s.setRefCount f n
    | some s => s

/-- `F_DUPFD` of `sys_fcntl`: the first free descriptor from `low` on. -/
def fcntlDupfd (t old low : Nat) : FileState :=
  match fdTableGet s t old with
  | none => s
  | some f =>
    match (List.range' low (fdMax - low)).find? fun fd => (fdTableGet s t fd).isNone with
    | none => s
    | some fd =>
      let n := (s.file f).refCount
      let s := s.setRefCount f (n + 1)
      match fdTableAllocAt s t fd f with
      | none => s.setRefCount f n
      | some s => s

/-! ### Histories -/

/-- The calls, each with the table of the process that makes it and the memory it is given. -/
inductive FileCall where
  | create (t node : Nat) (files : List Nat)
  | open (t f node limit : Nat) (opened : Bool)
  | pipe (t rfile wfile rnode wnode limit : Nat)
  | dup (t old limit : Nat)
  | dup2 (t old new : Nat)
  | dupfd (t old low : Nat)
  | close (t fd : Nat)
  | clone (src dst : Nat)
  | destroy (t : Nat)
deriving DecidableEq

namespace FileState

def start : FileState where
  tables := ∅
  entry := fun _ => none
  live := ∅
  file := fun _ => ⟨0, 0, .heap⟩
  openCount := fun _ => 0
  released := []
  stray := 0

/-- No file is on this node. -/
def Unused (node : Nat) : Prop := ∀ f ∈ s.live, (s.file f).node ≠ node
deriving Decidable

/-- One call. Memory that is handed out is not in use, and a process makes its calls while
its table exists. -/
def step : FileCall → Option FileState
  | .create t node files =>
    if t ∉ s.tables ∧ files.length ≤ 3 ∧ files.Nodup ∧ ∀ f ∈ files, f ∉ s.live then
      some (setupStdio (fdTableCreate s t) t node 0 files)
    else none
  | .open t f node limit opened =>
    if t ∈ s.tables ∧ f ∉ s.live then some (vfsOpen s t f node limit opened) else none
  | .pipe t rfile wfile rnode wnode limit =>
    if t ∈ s.tables ∧ rfile ∉ s.live ∧ wfile ∉ s.live ∧ rfile ≠ wfile ∧ rnode ≠ wnode ∧
        s.Unused rnode ∧ s.Unused wnode then
      some (pipeCreate s t rfile wfile rnode wnode limit)
    else none
  | .dup t old limit => if t ∈ s.tables then some (vfsDup s t old limit) else none
  | .dup2 t old new => if t ∈ s.tables then some (vfsDup2 s t old new) else none
  | .dupfd t old low => if t ∈ s.tables then some (fcntlDupfd s t old low) else none
  | .close t fd => if t ∈ s.tables then some (vfsClose s t fd) else none
  | .clone src dst =>
    if src ∈ s.tables ∧ dst ∉ s.tables then some (fdTableClone s src dst) else none
  | .destroy t => if t ∈ s.tables then some (fdTableDestroy s t) else none

/-- The descriptors of the existing tables. -/
def keys : Finset (Nat × Nat) := s.tables ×ˢ Finset.range fdMax

/-- A `file_t` exists exactly while a descriptor refers to it, and its count is the number
of those; the count of a node is the number of its files; and each file was released once,
to where it came from. -/
structure Consistent (s : FileState) : Prop where
  live : ∀ f, f ∈ s.live ↔ ∃ k ∈ s.keys, s.entry k = some f
  refCount : ∀ f ∈ s.live, (s.file f).refCount = hits s.keys s.entry f
  openCount : ∀ n, s.openCount n = hits s.live (fun f => some (s.file f).node) n
  released : ∀ r ∈ s.released, r.returned = r.obtained
  stray : s.stray = 0

/-- The close of a descriptor releases a file of the cache that has no other descriptor. -/
def CloseSafe (t fd : Nat) : Prop :=
  ∀ f ∈ fdTableGet s t fd, (s.file f).refCount = 1 ∧ (s.file f).origin = .cache
deriving Decidable

/-- The descriptors of one table. -/
def row (t : Nat) : Finset (Nat × Nat) := {t} ×ˢ Finset.range fdMax

/-- The files that only this table refers to come from `kmalloc`. -/
def DropSafe (t : Nat) : Prop :=
  ∀ f ∈ s.live, (s.file f).refCount = hits (row t) s.entry f → (s.file f).origin = .heap
deriving Decidable

/-- There are too few free descriptors for a pipe, and nothing is released that is in use
elsewhere or belongs to the other allocator. -/
def Careful : FileCall → Prop
  | .pipe t _ _ _ _ limit => min limit fdMax < openEntries s t + 2
  | .close t fd => s.CloseSafe t fd
  | .dup2 t old new => old ≠ new → (fdTableGet s t old).isSome → s.CloseSafe t new
  | .destroy t => s.DropSafe t
  | _ => True

instance (s : FileState) (c : FileCall) : Decidable (s.Careful c) := by
  cases c <;> unfold Careful <;> infer_instance

end FileState

end Kurios.Fs
