import Kurios.Base.DList
import Kurios.Fs.Codes

/-!
The directories of the RAM file system (`kernel/fs/ramfs.c`).

A node is known by its address. Each field of `vfs_node_t` is a function of it; times, owner,
permissions and contents, which no directory operation looks at, are left out. A name is a C
string as the list of its characters. `vfs_node_alloc` gives an address out of `live`, or
none; the cache for the data of a file may be exhausted as well.

A loop over siblings has no result if it does not end.
-/

namespace Kurios.Ramfs

open Base Errno Function

/-- `VFS_NAME_MAX`. -/
def vfsNameMax : Nat := 255

/-- `VFS_FILE`. -/
def vfsFile : UInt32 := 1

/-- `VFS_DIR`. -/
def vfsDir : UInt32 := 2

structure Tree where
  live : Finset Nat
  root : Nat
  name : Nat → List Nat
  type : Nat → UInt32
  refCount : Nat → UInt32
  openCount : Nat → UInt32
  parent : Nat → Option Nat
  children : Nat → Option Nat
  next : Nat → Option Nat
  prev : Nat → Option Nat

namespace Tree

variable (t : Tree)

section

variable (a : Nat)

def setName (name : List Nat) : Tree := { t with name := update t.name a name }

def setRefCount (n : UInt32) : Tree :=
  { t with refCount := update t.refCount a n }

def setParent (p : Option Nat) : Tree :=
  { t with parent := update t.parent a p }

def setChildren (c : Option Nat) : Tree :=
  { t with children := update t.children a c }

def setNext (n : Option Nat) : Tree := { t with next := update t.next a n }

def setPrev (p : Option Nat) : Tree := { t with prev := update t.prev a p }

end

/-! ### Nodes -/

/-- `vfs_node_ref`. -/
def nodeRef (a : Nat) : Tree := t.setRefCount a (t.refCount a + 1)

/-- `vfs_node_free`. -/
def nodeFree (a : Nat) : Tree := { t with live := t.live.erase a }

/-- `vfs_node_unref`. -/
def nodeUnref (a : Nat) : Tree :=
  let t := t.setRefCount a (t.refCount a - 1)
  if t.refCount a = 0 then t.nodeFree a else t

/-- What `ramfs_create_node` makes of the node that `vfs_node_alloc` gives. -/
def nodeInit (a : Nat) (name : List Nat) (type : UInt32) : Tree where
  live := insert a t.live
  root := t.root
  name := update t.name a (name.take vfsNameMax)
  type := update t.type a type
  refCount := update t.refCount a 1
  openCount := update t.openCount a 0
  parent := update t.parent a none
  children := update t.children a none
  next := update t.next a none
  prev := update t.prev a none

/-- `ramfs_create_node`: `addr` is what `vfs_node_alloc` gives, `mem` whether there is memory
for the data of a file. -/
def createNode (addr : Option Nat) (mem : Bool) (name : List Nat) (type : UInt32) :
    Option Nat × Tree :=
  match addr with
  | none => (none, t)
  | some a =>
    let t := t.nodeInit a name type
    if type ≠ vfsDir ∧ mem = false then (none, t.nodeFree a) else (some a, t)

/-! ### Lists of children -/

/-- `ramfs_add_child`. -/
def addChild (parent child : Nat) : Tree :=
  let t := t.setParent child (some parent)
  let t := t.setNext child (t.children parent)
  let t := t.setPrev child none
  let t :=
    match t.children parent with
    | some first => t.setPrev first (some child)
    | none => t
  t.setChildren parent (some child)

/-- What leads to a child leads past it. -/
def skipForward (parent child : Nat) : Tree :=
  match t.prev child with
  | some prev => t.setNext prev (t.next child)
  | none => t.setChildren parent (t.next child)

/-- What leads back to a child leads past it. -/
def skipBack (child : Nat) : Tree :=
  match t.next child with
  | some next => t.setPrev next (t.prev child)
  | none => t

/-- `ramfs_remove_child`. -/
def removeChild (parent child : Nat) : Tree :=
  let t := (t.skipForward parent child).skipBack child
  ((t.setParent child none).setNext child none).setPrev child none

/-- The loop that looks for a name among the children. -/
def findChild (dir : Nat) (name : List Nat) : Option (Option Nat) :=
  walk t.next (fun c => if t.name c = name then some (some c) else none) none t.live.card
    (t.children dir)

/-! ### Directory operations -/

/-- `ramfs_dir_finddir`. -/
def dirFinddir (dir : Nat) (name : List Nat) : Option (Option Nat × Tree) :=
  match t.findChild dir name with
  | none => none
  | some none => some (none, t)
  | some (some c) => some (some c, t.nodeRef c)

section

variable (addr : Option Nat) (mem : Bool) (parent : Nat) (name : List Nat)

/-- `ramfs_dir_create`. The reference to an existing node is not given back. -/
def dirCreate (type : UInt32) : Option (Int × Tree) :=
  match t.dirFinddir parent name with
  | none => none
  | some (some _, t) => some (vfsEexist, t)
  | some (none, t) =>
    match t.createNode addr mem name type with
    | (none, t) => some (vfsEnomem, t)
    | (some node, t) => some (vfsOk, t.addChild parent node)

/-- `ramfs_dir_mkdir`. -/
def dirMkdir : Option (Int × Tree) := t.dirCreate addr mem parent name vfsDir

end

/-- `ramfs_dir_unlink`. -/
def dirUnlink (parent : Nat) (name : List Nat) : Option (Int × Tree) :=
  match t.findChild parent name with
  | none => none
  | some none => some (vfsEnoent, t)
  | some (some node) =>
    if t.type node = vfsDir then some (vfsEisdir, t)
    else if t.openCount node > 0 then some (vfsEbusy, t)
    else some (vfsOk, (t.removeChild parent node).nodeUnref node)

/-- `ramfs_dir_rmdir`. -/
def dirRmdir (parent : Nat) (name : List Nat) : Option (Int × Tree) :=
  match t.findChild parent name with
  | none => none
  | some none => some (vfsEnoent, t)
  | some (some node) =>
    if t.type node ≠ vfsDir then some (vfsEnotdir, t)
    else if t.children node ≠ none then some (vfsEnotempty, t)
    else if t.openCount node > 0 then some (vfsEbusy, t)
    else some (vfsOk, (t.removeChild parent node).nodeUnref node)

/-- `ramfs_dir_rename`. The new parent may be the node itself, or below it. -/
def dirRename (oldParent : Nat) (oldName : List Nat) (newParent : Nat) (newName : List Nat) :
    Option (Int × Tree) :=
  match t.findChild oldParent oldName with
  | none => none
  | some none => some (vfsEnoent, t)
  | some (some node) =>
    if t.openCount node > 0 then some (vfsEbusy, t)
    else
      match t.findChild newParent newName with
      | none => none
      | some (some _) => some (vfsEexist, t)
      | some none =>
        let t := t.removeChild oldParent node
        let t := t.setName node (newName.take vfsNameMax)
        some (vfsOk, t.addChild newParent node)

end Tree

end Kurios.Ramfs
