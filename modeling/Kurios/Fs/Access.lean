import Kurios.Base.Loop
import Kurios.Fs.Codes

/-!
Access to files: `vfs_check_permission`, `vfs_open`, `vfs_write`, `vfs_truncate` and
`vfs_close` (`kernel/fs/vfs.c`) behind the system calls `open`, `write`, `truncate`,
`ftruncate` and `close` (`kernel/syscall/syscall.c`), for one process.

What a file holds is of a type `α`, and `FileOps` are the operations of its file system. Paths
lead to nodes by `lookup`; what a directory makes of a request for a new file is part of the
call. The bytes of a user buffer are `none` where a copy from it fails.

Whether a process may write is decided when it opens a file for writing
(`checkPermission_writable`), and `vfs_write` refuses descriptors opened for reading only. Two
ways to change a file pass this by: `O_TRUNC` with `O_RDONLY`, and `truncate`.
-/

namespace Kurios.Fs.Access

open Base Errno Function Option List

variable {flags : Nat} {path : List Nat}

/-! ### Nodes and permissions -/

inductive NodeType where
  | file
  | dir
  | charDev
  | blkDev
  | pipe
  | symlink
  | socket
  | mountPt
deriving DecidableEq, Repr

structure Node (α : Type) where
  type : NodeType
  permissions : Nat
  uid : Nat
  gid : Nat
  data : α
deriving DecidableEq, Repr

/-- Operations of a file system. `openErr` is the result of the node's own open function;
`write` takes the bytes and the offset. -/
structure FileOps (α : Type) where
  size : α → Nat
  openErr : α → Int
  write : α → List UInt8 → Nat → Int × α
  truncate : α → Nat → Int × α

/-- The effective identities of a process, and its limit for descriptors. -/
structure Process where
  euid : Nat
  egid : Nat
  nofile : Nat

def oRdonly : Nat := 0x0000
def oWronly : Nat := 0x0001
def oRdwr : Nat := 0x0002
def oAccmode : Nat := 0x0003
def oCreat : Nat := 0x0100
def oTrunc : Nat := 0x0400
def oAppend : Nat := 0x0800
def oDirectory : Nat := 0x2000

def permRead : Nat := 4
def permWrite : Nat := 2

def eacces : Int := -13
def efault : Int := -14
def enosys : Int := -38

/-- The bits that a way of access needs. -/
def required (accessMode : Nat) : Nat :=
  if accessMode &&& oRdwr ≠ 0 then permRead ||| permWrite
  else if accessMode &&& oWronly ≠ 0 then permWrite
  else permRead

section

variable {α : Type} (proc : Process) (node : Node α)

/-- `vfs_check_permission`. -/
def checkPermission (accessMode : Nat) : Int :=
  if node.type = .charDev ∨ node.type = .blkDev ∨ node.type = .dir then vfsOk
  else if proc.euid = 0 then vfsOk
  else if proc.euid = node.uid then
    if node.permissions >>> 6 &&& 7 &&& required accessMode = required accessMode then vfsOk
    else eacces
  else if proc.egid = node.gid then
    if node.permissions >>> 3 &&& 7 &&& required accessMode = required accessMode then vfsOk
    else eacces
  else if node.permissions &&& 7 &&& required accessMode = required accessMode then vfsOk
  else eacces

/-- The three mode bits for a process: those of the owner, of the group or of others. -/
def modeBits : Nat :=
  if proc.euid = node.uid then node.permissions >>> 6 &&& 7
  else if proc.egid = node.gid then node.permissions >>> 3 &&& 7
  else node.permissions &&& 7

/-- The mode bits of the node let the process write. -/
def MayWrite : Prop :=
  modeBits proc node &&& permWrite ≠ 0
deriving Decidable

end

/-! ### Open files -/

/-- `file_t`. -/
structure OpenFile where
  node : Nat
  offset : Nat
  flags : Nat
deriving DecidableEq, Repr

/-- `FD_MAX` and `VFS_MAX_FDS`. -/
def fdMax : Nat := 256

/-- The nodes, the paths that lead to them, and the descriptors of the process. -/
structure Vfs (α : Type) where
  live : Finset Nat
  node : Nat → Node α
  lookup : List Nat → Option Nat
  table : Nat → Option OpenFile

/-- What `vfs_open` meets: an error or the new node when a file is to be made, and whether
there is memory for a `file_t`. -/
structure OpenEnv (α : Type) where
  create : Except Int (Nat × Node α)
  mem : Bool

section Operations

variable {α : Type} (ops : FileOps α) (proc : Process)

namespace Vfs

section

variable (s : Vfs α)

def setData (a : Nat) (data : α) : Vfs α :=
  { s with node := update s.node a { s.node a with data := data } }

def setFile (fd : Nat) (file : Option OpenFile) : Vfs α :=
  { s with table := update s.table fd file }

/-- `get_file` of an `int`, of which the system call has 64 bits. -/
def getFile (fd : Nat) : Option OpenFile :=
  if fd % 2 ^ 32 < fdMax then s.table (fd % 2 ^ 32) else none

/-- `fd_table_alloc`: the lowest free descriptor, unless the limit is reached. -/
def allocFd : Option Nat :=
  if ((range fdMax).filter fun fd => (s.table fd).isSome).length ≥ proc.nofile then none
  else (range fdMax).find? fun fd => (s.table fd).isNone

/-- The second half of `vfs_open`, for a node that exists. -/
def openNode (a flags : Nat) (mem : Bool) : Int × Vfs α :=
  let node := s.node a
  if flags &&& oDirectory ≠ 0 ∧ node.type ≠ .dir then (vfsEnotdir, s)
  else
    let permErr := checkPermission proc node (flags &&& oAccmode)
    if permErr ≠ vfsOk then (permErr, s)
    else if mem = false then (vfsEnomem, s)
    else
      match s.allocFd proc with
      | none => (vfsEmfile, s)
      | some fd =>
        if ops.openErr node.data ≠ vfsOk then (ops.openErr node.data, s)
        else
          let s :=
            if flags &&& oTrunc ≠ 0 ∧ node.type = .file then
              s.setData a (ops.truncate node.data 0).2
            else s
          let offset := if flags &&& oAppend ≠ 0 then ops.size (s.node a).data else 0
          (fd, s.setFile fd (some ⟨a, offset, flags⟩))

/-- `vfs_open`. -/
def vfsOpen (path : List Nat) (flags : Nat) (env : OpenEnv α) : Int × Vfs α :=
  match s.lookup path with
  | some a => s.openNode ops proc a flags env.mem
  | none =>
    if flags &&& oCreat ≠ 0 then
      match env.create with
      | .error err => (err, s)
      | .ok (a, node) =>
        let s :=
          { s with
            live := insert a s.live
            node := update s.node a node
            lookup := update s.lookup path (some a) }
        s.openNode ops proc a flags env.mem
    else (vfsEnoent, s)

/-- `vfs_write`. -/
def vfsWrite (fd : Nat) (bytes : List UInt8) : Int × Vfs α :=
  match s.getFile fd with
  | none => (vfsEbadf, s)
  | some file =>
    let node := s.node file.node
    if file.flags &&& oAccmode = oRdonly then (vfsEbadf, s)
    else if node.type = .dir then (vfsEisdir, s)
    else
      let offset := if file.flags &&& oAppend ≠ 0 then ops.size node.data else file.offset
      let (n, data) := ops.write node.data bytes offset
      let offset := if n > 0 then offset + n.toNat else offset
      (n, (s.setData file.node data).setFile (fd % 2 ^ 32) (some { file with offset := offset }))

/-- `vfs_truncate`. -/
def vfsTruncate (path : List Nat) (size : Nat) : Int × Vfs α :=
  match s.lookup path with
  | none => (vfsEnoent, s)
  | some a =>
    if (s.node a).type ≠ .file then (vfsEisdir, s)
    else
      let (err, data) := ops.truncate (s.node a).data size
      (err, s.setData a data)

end

/-! ### System calls -/

/-- `WRITE_CHUNK_SIZE`. -/
def writeChunkSize : Nat := 256

/-- The loop of `sys_write`. -/
def writeLoop (fd : Nat) : Nat → Vfs α → List (Option UInt8) → Nat → Int × Vfs α
  | 0, s, _, total => (total, s)
  | fuel + 1, s, buf, total =>
    if buf = [] then (total, s)
    else
      match (buf.take writeChunkSize).mapM id with
      | none => (if total > 0 then total else efault, s)
      | some bytes =>
        let (n, s) := s.vfsWrite ops fd bytes
        if n < 0 then (if total > 0 then total else n, s)
        else if n < bytes.length then ((total + n.toNat : Nat), s)
        else writeLoop fd fuel s (buf.drop writeChunkSize) (total + n.toNat)

/-- `sys_write`. -/
def sysWrite (s : Vfs α) (fd : Nat) (buf : List (Option UInt8)) : Int × Vfs α :=
  if fd = 0 then (vfsEbadf, s) else writeLoop ops fd buf.length s buf 0

/-- `sys_open`. -/
def sysOpen (s : Vfs α) (path : List Nat) (flags : Nat) (env : OpenEnv α) : Int × Vfs α :=
  s.vfsOpen ops proc path (flags % 2 ^ 32) env

/-- `sys_ftruncate`. -/
def sysFtruncate (s : Vfs α) (fd : Nat) : Int × Vfs α :=
  if fd < 3 then (vfsEinval, s) else (enosys, s)

/-- `sys_close`. -/
def sysClose (s : Vfs α) (fd : Nat) : Int × Vfs α :=
  if fd ≤ 2 then (vfsEbadf, s)
  else if fd ≥ fdMax then (vfsEbadf, s)
  else (0, s.setFile fd none)

end Vfs

end Operations

/-- A system call of the process. -/
inductive Call (α : Type) where
  | open (path : List Nat) (flags : Nat) (env : OpenEnv α)
  | write (fd : Nat) (buf : List (Option UInt8))
  | truncate (path : List Nat) (size : Nat)
  | ftruncate (fd length : Nat)
  | close (fd : Nat)

section Runs

variable {α : Type} (ops : FileOps α) (proc : Process)

/-- A new node is made at an address that is not in use. -/
def OpenEnv.Fresh (env : OpenEnv α) (s : Vfs α) : Prop :=
  match env.create with
  | .error _ => True
  | .ok (a, _) => a ∉ s.live

instance (env : OpenEnv α) (s : Vfs α) : Decidable (env.Fresh s) := by
  unfold OpenEnv.Fresh
  split <;> infer_instance

/-- The state after a call. -/
def step (s : Vfs α) : Call α → Option (Vfs α)
  | .open path flags env => if env.Fresh s then some (s.sysOpen ops proc path flags env).2 else none
  | .write fd buf => some (s.sysWrite ops fd buf).2
  | .truncate path size => some (s.vfsTruncate ops path size).2
  | .ftruncate fd _ => some (s.sysFtruncate fd).2
  | .close fd => some (s.sysClose fd).2

end Runs

/-! ### What the permissions protect -/

section Protection

variable {α : Type} {ops : FileOps α} {proc : Process} {s s' : Vfs α} {node : Node α} {a b : Nat}

/-- What a permission check grants are mode bits. -/
theorem checkPermission_file (heuid : proc.euid ≠ 0) (hfile : node.type = .file) (mode : Nat) :
    checkPermission proc node mode =
      if modeBits proc node &&& required mode = required mode then vfsOk else eacces := by
  unfold checkPermission modeBits
  rw [hfile, if_neg (by decide), if_neg heuid]
  split
  · rfl
  · split <;> rfl

/-- A process that may not write can open a file only for reading. -/
theorem checkPermission_writable (heuid : proc.euid ≠ 0) (hfile : node.type = .file)
    (hmode : ¬ MayWrite proc node) (hok : checkPermission proc node (flags &&& oAccmode) = vfsOk) :
    flags &&& oAccmode = oRdonly := by
  have hle : flags &&& oAccmode ≤ 3 := Nat.and_le_right
  generalize flags &&& oAccmode = mode at hok hle
  rw [checkPermission_file heuid hfile] at hok
  have hgranted : modeBits proc node &&& required mode = required mode := by
    by_contra hdenied
    rw [if_neg hdenied] at hok
    cases hok
  have hbit : required mode &&& permWrite = 0 := by
    rw [← hgranted, Nat.and_assoc, Nat.and_comm (required mode), ← Nat.and_assoc,
      not_not.mp hmode, Nat.zero_and]
  -- Every other way of access needs the bit for writing.
  obtain rfl | rfl | rfl | rfl : mode = 0 ∨ mode = 1 ∨ mode = 2 ∨ mode = 3 := by omega
  · rfl
  all_goals exact absurd hbit (by decide)

/-- The node is as it was, and no descriptor of the process is for writing to it. -/
structure Guarded (n : Node α) (a : Nat) (s : Vfs α) : Prop where
  node : s.node a = n
  live : a ∈ s.live
  readOnly : ∀ fd file, s.table fd = some file → file.node = a → file.flags &&& oAccmode = oRdonly

namespace Guarded

variable {n : Node α}

section

variable (h : Guarded n a s)
include h

theorem setData (hb : b ≠ a) (data : α) : Guarded n a (s.setData b data) :=
  ⟨(update_of_ne (Ne.symm hb) _ _).trans h.node, h.live, h.readOnly⟩

theorem setFile (fd : Nat) {file}
    (hfile : ∀ f, file = some f → f.node = a → f.flags &&& oAccmode = oRdonly) :
    Guarded n a (s.setFile fd file) := by
  refine ⟨h.node, h.live, fun fd' f hf => ?_⟩
  rcases update_cases hf with ⟨-, hf⟩ | ⟨-, hf⟩
  · exact hfile f hf
  · exact h.readOnly fd' f hf

theorem setOther (fd : Nat) {offset} (hb : b ≠ a) :
    Guarded n a (s.setFile fd (some ⟨b, offset, flags⟩)) := by
  refine h.setFile fd fun f hf hfa => ?_
  cases hf
  exact absurd hfa hb

section

variable (heuid : proc.euid ≠ 0) (hfile : n.type = .file) (hmode : ¬ MayWrite proc n)
include heuid hfile hmode

theorem openNode (mem : Bool) (htrunc : b = a → flags &&& oTrunc = 0 ∨ flags &&& oAccmode ≠ oRdonly)
    : Guarded n a (s.openNode ops proc b flags mem).2 := by
  unfold Vfs.openNode
  dsimp only
  split
  · exact h
  split
  · exact h
  case isFalse hperm =>
  split
  · exact h
  split
  · exact h
  case h_2 fd _ =>
  split
  · exact h
  by_cases hb : b = a
  · subst hb
    -- The file has been opened for reading, so without `O_TRUNC`.
    have hread : flags &&& oAccmode = oRdonly := by
      rw [h.node] at hperm
      exact checkPermission_writable heuid hfile hmode (not_not.mp hperm)
    have hkeep : flags &&& oTrunc = 0 := (htrunc rfl).resolve_right (not_not.mpr hread)
    rw [if_neg fun htr => htr.1 hkeep]
    refine h.setFile fd fun f hf _ => ?_
    cases hf
    exact hread
  · split
    · exact (h.setData hb _).setOther fd hb
    · exact h.setOther fd hb

theorem vfsOpen {env} (hfresh : env.Fresh s)
    (htrunc : s.lookup path = some a → flags &&& oTrunc = 0 ∨ flags &&& oAccmode ≠ oRdonly) :
    Guarded n a (s.vfsOpen ops proc path flags env).2 := by
  unfold Vfs.vfsOpen
  split
  case h_1 b hlookup => exact h.openNode heuid hfile hmode env.mem fun hb => htrunc (hb ▸ hlookup)
  split
  case isFalse => exact h
  case isTrue =>
  split
  · exact h
  case h_2 b new hcr =>
  have hba : b ≠ a := by
    rintro rfl
    unfold OpenEnv.Fresh at hfresh
    rw [hcr] at hfresh
    exact hfresh h.live
  have hnew : Guarded n a { s with
      live := insert b s.live
      node := update s.node b new
      lookup := update s.lookup path (some b) } :=
    ⟨(update_of_ne (Ne.symm hba) _ _).trans h.node, Finset.mem_insert_of_mem h.live, h.readOnly⟩
  exact hnew.openNode heuid hfile hmode env.mem fun hb => absurd hb hba

end

theorem vfsWrite (fd : Nat) (bytes : List UInt8) : Guarded n a (s.vfsWrite ops fd bytes).2 := by
  unfold Vfs.vfsWrite
  split
  · exact h
  case h_2 file hget =>
  have htable := (ite_none_right_eq_some.mp hget).2
  dsimp only
  split
  · exact h
  case isFalse hw =>
  split
  · exact h
  · have hne : file.node ≠ a := fun heq => hw (h.readOnly _ file htable heq)
    exact (h.setData hne _).setOther _ hne

theorem writeLoop (fd fuel : Nat) (buf : List (Option UInt8)) (total : Nat) :
    Guarded n a (Vfs.writeLoop ops fd fuel s buf total).2 := by
  induction fuel generalizing s buf total with
  | zero => exact h
  | succ fuel ih =>
    rw [Vfs.writeLoop]
    split
    · exact h
    split
    · exact h
    case h_2 bytes _ =>
    have hwrite : Guarded n a (s.vfsWrite ops fd bytes).2 := h.vfsWrite fd bytes
    dsimp only
    split
    · exact hwrite
    split
    · exact hwrite
    · exact ih hwrite _ _

theorem vfsTruncate (hpath : s.lookup path ≠ some a) (size : Nat) :
    Guarded n a (s.vfsTruncate ops path size).2 := by
  unfold Vfs.vfsTruncate
  split
  · exact h
  case h_2 b hlookup =>
  split
  · exact h
  · have hba : b ≠ a := fun heq => hpath (heq ▸ hlookup)
    exact h.setData hba _

end

end Guarded

/-- The file is not truncated by its path, nor when it is opened for reading. -/
def Careful (a : Nat) (s : Vfs α) : Call α → Prop
  | .open path flags _ => s.lookup path = some a →
      flags % 2 ^ 32 &&& oTrunc = 0 ∨ flags % 2 ^ 32 &&& oAccmode ≠ oRdonly
  | .truncate path _ => s.lookup path ≠ some a
  | .write .. => True
  | .ftruncate .. => True
  | .close .. => True

instance (a : Nat) (s : Vfs α) (call : Call α) : Decidable (Careful a s call) := by
  cases call <;> unfold Careful <;> infer_instance

theorem Guarded.step {n} (h : Guarded n a s) (heuid : proc.euid ≠ 0)
    (hfile : n.type = .file) (hmode : ¬ MayWrite proc n) {call}
    (hcare : Careful a s call) (hstep : step ops proc s call = some s') : Guarded n a s' := by
  cases call with
  | «open» path flags env =>
    obtain ⟨hfresh, rfl⟩ := ite_eq_some hstep
    exact h.vfsOpen heuid hfile hmode hfresh hcare
  | write fd buf =>
    cases hstep
    unfold Vfs.sysWrite
    split
    · exact h
    · exact h.writeLoop fd _ buf 0
  | truncate path size =>
    cases hstep
    exact h.vfsTruncate hcare size
  | ftruncate fd length =>
    cases hstep
    unfold Vfs.sysFtruncate
    split <;> exact h
  | close fd =>
    cases hstep
    unfold Vfs.sysClose
    split
    · exact h
    split
    · exact h
    · exact h.setFile fd fun f hf => (nomatch hf)

end Protection

/-! ### A file in the root directory -/

/-- Files as lists of bytes. -/
def byteOps : FileOps (List UInt8) where
  size := length
  openErr _ := vfsOk
  write data bytes offset :=
    (bytes.length, data.take offset ++ replicate (offset - data.length) 0 ++ bytes ++
      data.drop (offset + bytes.length))
  truncate data size := (vfsOk, data.take size ++ replicate (size - data.length) 0)

/-- A file `/f` with mode 0444 that belongs to root. -/
def readOnlyFile : Node (List UInt8) := ⟨.file, 0o444, 0, 0, [1, 2, 3]⟩

/-- The first three descriptors are for the console. -/
def oneFile : Vfs (List UInt8) where
  live := {0, 1}
  node a := if a = 1 then readOnlyFile else ⟨.charDev, 0o666, 0, 0, []⟩
  lookup path := if path = [47, 102] then some 1 else none
  table fd := if fd < 3 then some ⟨0, 0, oRdwr⟩ else none

def user : Process := ⟨1000, 1000, 1024⟩

/-- The file is opened for reading and writing, for reading, and with `O_TRUNC` for writing;
then there is a write to each descriptor. -/
def openAndWrite : List (Call (List UInt8)) :=
  [.open [47, 102] oRdwr ⟨.error vfsEnoent, true⟩, .open [47, 102] oRdonly ⟨.error vfsEnoent, true⟩,
    .open [47, 102] (oWronly ||| oTrunc) ⟨.error vfsEnoent, true⟩, .write 3 [some 9],
    .write 4 [some 9], .ftruncate 3 0, .close 3]

end Kurios.Fs.Access
