import Kurios.Base.Loop
import Kurios.Fs.Codes
import Kurios.Signal.Defs

/-!
`sys_getdents` (`kernel/syscall/syscall.c`) over `vfs_readdir`.

A call copies one record. The position of the file moves before the call knows whether the
record fits, so that a buffer that is too small loses an entry.
-/

namespace Kurios.Fs

open Base Errno Signal List

/-- `dirent_t`, with the name up to its end. -/
structure DirEntry where
  name : List UInt8
  type : Nat
  inode : Word

/-- `linux_dirent64_t`. -/
structure LinuxDirent where
  ino : Word
  off : Int
  reclen : Nat
  type : Nat
  name : List UInt8
deriving DecidableEq

/-- `sizeof(linux_dirent64_t)`. -/
def linuxDirentSize : Nat := 24

/-- The offset of `d_name`. -/
def nameOffset : Nat := 19

/-- The size of `kbuf`. -/
def kbufSize : Nat := 256

namespace DirEntry

/-- Header, name, terminator and padding. -/
def reclen (d : DirEntry) : Nat := (linuxDirentSize + d.name.length + 1 + 7) / 8 * 8

/-- The type is `DT_DIR` for `VFS_DIR`, and `DT_REG` otherwise. -/
def record (d : DirEntry) : LinuxDirent :=
  ⟨d.inode, 0, d.reclen % 2 ^ 16, if d.type = 2 then 4 else 8, d.name⟩

end DirEntry

/-- `vfs_readdir` on a directory with this operation. -/
def vfsReaddir (readdir : Nat → Except Int DirEntry) (dirIndex : Nat) : Except Int DirEntry × Nat :=
  match readdir dirIndex with
  | .ok dent => (.ok dent, (dirIndex + 1) % 2 ^ 32)
  | .error err => (.error err, dirIndex)

/-- What a call returns and copies to the user, how far it fills `kbuf`, and the position. -/
structure Reply where
  ret : Int
  copied : List LinuxDirent
  filled : Nat
  dirIndex : Nat

def sysGetdents (readdir : Nat → Except Int DirEntry) (i : Nat) (dirp count : Word) : Reply :=
  if count ≠ 0 ∧ accessOk dirp count.toNat = false then ⟨-14, [], 0, i⟩
  else if count.toNat < linuxDirentSize + 2 then ⟨vfsEinval, [], 0, i⟩
  else
    match vfsReaddir readdir i with
    | (.error err, i) => ⟨if err = vfsEnoent then 0 else err, [], 0, i⟩
    | (.ok dent, i) =>
      let filled := nameOffset + dent.name.length + 1
      if dent.reclen > count.toNat then ⟨vfsEinval, [], 0, i⟩
      else if accessOk dirp dent.reclen then ⟨dent.reclen, [dent.record], filled, i⟩
      else ⟨-14, [], filled, i⟩

/-! ### Reading a directory -/

/-- The entries of a directory that does not change. -/
def listing (entries : List DirEntry) (i : Nat) : Except Int DirEntry :=
  (entries[i]?).elim (.error vfsEnoent) .ok

/-- The position, the records so far, whether a call has returned 0, and whether all calls
have kept to their buffers. -/
structure Reading where
  dirIndex : Nat := 0
  records : List LinuxDirent := []
  ended : Bool := false
  within : Bool := true

namespace Reading

variable {entries : List DirEntry} {s s' : Reading} {call : Word × Word}

section

variable (entries : List DirEntry) (s : Reading) (call : Word × Word)

/-- A call with its `dirp` and `count`; none follows one that returned 0. -/
def step : Option Reading :=
  let r := sysGetdents (listing entries) s.dirIndex call.1 call.2
  if s.ended = false then
    some ⟨r.dirIndex, s.records ++ r.copied, r.ret = 0,
      s.within && decide (r.ret ≤ call.2.toNat ∧ r.filled ≤ kbufSize)⟩
  else none

/-- The buffer has room for the next record, or for none. -/
def Fits : Prop :=
  call.2.toNat < linuxDirentSize + 2 ∨ ∀ d ∈ entries[s.dirIndex]?, d.reclen ≤ call.2.toNat
deriving Decidable

end

theorem sysGetdents_cases (hfits : s.Fits entries call) {r}
    (hr : sysGetdents (listing entries) s.dirIndex call.1 call.2 = r) :
    (r.copied = [] ∧ r.filled = 0 ∧ r.dirIndex = s.dirIndex ∧
      (r.ret < 0 ∨ r.ret = 0 ∧ entries[s.dirIndex]? = none)) ∨
    ∃ d, entries[s.dirIndex]? = some d ∧ d.reclen ≤ call.2.toNat ∧
      r = ⟨d.reclen, [d.record], nameOffset + d.name.length + 1, (s.dirIndex + 1) % 2 ^ 32⟩ := by
  subst hr
  unfold sysGetdents
  split
  · exact .inl ⟨rfl, rfl, rfl, .inl (Int.negSucc_lt_zero _)⟩
  case isFalse hok =>
  split
  · exact .inl ⟨rfl, rfl, rfl, .inl (Int.negSucc_lt_zero _)⟩
  case isFalse hlarge =>
  cases hd : entries[s.dirIndex]? with
  | none =>
    simp [vfsReaddir, listing, hd]
  | some d =>
    have hroom := hfits.resolve_left hlarge d hd
    -- What is copied is part of what `access_ok` has passed.
    have hok : accessOk call.1 d.reclen = true := by
      have hne : call.2 ≠ 0 := fun hzero => by simp [hzero, linuxDirentSize] at hlarge
      simp only [hne, accessOk, true_and, decide_eq_false_iff_not, not_not, ne_eq,
        not_false_eq_true, decide_eq_true_eq] at hok ⊢
      omega
    simp only [vfsReaddir, listing, hd, Option.elim_some, if_neg (not_lt.mpr hroom), hok, if_true]
    exact .inr ⟨d, rfl, hroom, rfl⟩

/-- The records are those of the entries before the position. -/
structure Exact (entries : List DirEntry) (s : Reading) : Prop where
  records : s.records = (entries.take s.dirIndex).map DirEntry.record
  ended : s.ended = true → entries[s.dirIndex]? = none
  within : s.within = true

theorem Exact.step (hnames : ∀ d ∈ entries, d.name.length ≤ 236) (hlen : entries.length < 2 ^ 32)
    (h : s.Exact entries) (hfits : s.Fits entries call)
    (hstep : Reading.step entries s call = some s') : s'.Exact entries := by
  obtain ⟨-, rfl⟩ := ite_eq_some hstep
  obtain ⟨hcopied, hfilled, hindex, hret⟩ | ⟨d, hd, hroom, heq⟩ := sysGetdents_cases hfits rfl
  · constructor
    · rw [hcopied, hindex, append_nil, h.records]
    · rw [hindex, decide_eq_true_eq]
      exact fun hzero => (hret.resolve_left (by omega)).2
    · simp only [h.within, hfilled, Bool.true_and, decide_eq_true_eq]
      omega
  have hname := hnames d (mem_of_getElem? hd)
  obtain ⟨hlt, -⟩ := List.getElem?_eq_some_iff.mp hd
  constructor
  · rw [heq, Nat.mod_eq_of_lt (by omega), take_add_one, map_append, h.records, hd]
    rfl
  · intro hzero
    rw [decide_eq_true_eq, heq] at hzero
    simp only [DirEntry.reclen] at hzero
    omega
  · rw [h.within, Bool.true_and, decide_eq_true_eq, heq]
    simp only [nameOffset, kbufSize]
    omega

end Reading

/-- **Directories are read completely**, by calls whose buffers have room for the next record
or for none, if no name is longer than 236 bytes: the records are those of the entries, each
once and in order, and all of them once a call returns 0. -/
theorem getdents_complete {entries : List DirEntry} (hnames : ∀ d ∈ entries, d.name.length ≤ 236)
    (hlen : entries.length < 2 ^ 32) {calls : List (Word × Word)} {s : Reading}
    (hrun : GuardedRun (Reading.step entries) (Reading.Fits entries) {} calls s) :
    s.within = true ∧ s.records <+: entries.map DirEntry.record ∧
      (s.ended = true → s.records = entries.map DirEntry.record) := by
  have h : s.Exact entries := hrun.inv (Reading.Exact entries)
    (fun _ _ _ h => h.step hnames hlen)
    ⟨rfl, Bool.noConfusion, rfl⟩
  rw [h.records]
  refine ⟨h.within, ( take_prefix _ _).map _, fun hended => ?_⟩
  rw [take_of_length_le (getElem?_eq_none_iff.mp (h.ended hended))]

/-- A file and a directory. -/
def twoEntries : List DirEntry := [⟨[97, 98, 99, 100, 101, 102, 103, 104], 1, 7⟩, ⟨[98], 2, 8⟩]

theorem getdents_complete_twoEntries : ∃ s,
    GuardedRun (Reading.step twoEntries) (Reading.Fits twoEntries) {}
      [(0x1000, 8), (0x1000, 40), (0x1000, 32), (0x1000, 32)] s ∧ s.ended = true ∧
      s.within = true ∧ s.records <+: twoEntries.map DirEntry.record ∧
      (s.ended = true → s.records = twoEntries.map DirEntry.record) :=
  exists_and_of (by decide +kernel) fun _ hrun _ => getdents_complete (by decide) (by decide) hrun

/-- A buffer of 26 bytes loses the first entry, and a name of 237 bytes leaves `kbuf`. -/
theorem getdents_loses_entry :
    (∃ s, run (Reading.step twoEntries) {} [(0x1000, 26), (0x1000, 32), (0x1000, 32)] = some s ∧
      s.ended = true ∧ s.records = [⟨8, 0, 32, 4, [98]⟩]) ∧
    kbufSize < (sysGetdents (listing [⟨replicate 237 97, 1, 7⟩]) 0 0x1000 512).filled := by
  decide +kernel

end Kurios.Fs
