import Mathlib

/-!
The identities of a process: `setuid`, `setgid`, `setreuid`, `setregid`, `setresuid` and
`setresgid` (`kernel/syscall/syscall.c`).

The calls for users and for groups do the same to the real, the effective and the saved
identity. Whether the caller is root is a matter of its effective user in both cases.

Without root, a call only moves around the identities that are there (`setId_subset` and its
siblings), so a process that has no identity 0 never gets one.
-/

namespace Kurios.Proc

open Finset

def eperm : Int := -1

/-- Real, effective and saved identity. -/
structure Ids where
  real : UInt32
  effective : UInt32
  saved : UInt32
deriving DecidableEq, Repr

/-- The identities of a process. -/
structure Creds where
  user : Ids
  group : Ids
deriving DecidableEq, Repr

variable (c : Creds)

/-- The effective user is root. -/
def Creds.isRoot : Bool := c.user.effective = 0

/-- An argument of the `setre` and `setres` calls: -1 keeps what there is. -/
def newId (current : UInt32) (arg : UInt64) : UInt32 :=
  if arg = -1 then current else arg.toUInt32

section

variable (root : Bool) (ids : Ids)

/-- `sys_setuid` and `sys_setgid`, for the identities they set. -/
def setId (id : UInt64) : Int × Ids :=
  if root then (0, ⟨id.toUInt32, id.toUInt32, id.toUInt32⟩)
  else if id = ids.real.toUInt64 ∨ id = ids.saved.toUInt64 then
    (0, { ids with effective := id.toUInt32 })
  else (eperm, ids)

/-- `sys_setreuid` and `sys_setregid`. -/
def setReId (real effective : UInt64) : Int × Ids :=
  let newReal := newId ids.real real
  let newEffective := newId ids.effective effective
  if root = false ∧ ((newReal ≠ ids.real ∧ newReal ≠ ids.effective) ∨
      (newEffective ≠ ids.real ∧ newEffective ≠ ids.effective ∧ newEffective ≠ ids.saved)) then
    (eperm, ids)
  else
    let newSaved :=
      if newReal ≠ ids.real ∨ (root = false ∧ newEffective ≠ ids.effective) then newEffective
      else ids.saved
    (0, ⟨newReal, newEffective, newSaved⟩)

/-- `sys_setresuid` and `sys_setresgid`. -/
def setResId (real effective saved : UInt64) : Int × Ids :=
  let newReal := newId ids.real real
  let newEffective := newId ids.effective effective
  let newSaved := newId ids.saved saved
  if root = false ∧
      ((newReal ≠ ids.real ∧ newReal ≠ ids.effective ∧ newReal ≠ ids.saved) ∨
      (newEffective ≠ ids.real ∧ newEffective ≠ ids.effective ∧ newEffective ≠ ids.saved) ∨
      (newSaved ≠ ids.real ∧ newSaved ≠ ids.effective ∧ newSaved ≠ ids.saved)) then
    (eperm, ids)
  else (0, ⟨newReal, newEffective, newSaved⟩)

end

/-! ### System calls -/

namespace Creds

/-- A call that sets the identities of the user. -/
def onUser (f : Bool → Ids → Int × Ids) : Int × Creds :=
  let r := f c.isRoot c.user
  (r.1, { c with user := r.2 })

/-- A call that sets the identities of the group. -/
def onGroup (f : Bool → Ids → Int × Ids) : Int × Creds :=
  let r := f c.isRoot c.group
  (r.1, { c with group := r.2 })

/-- `sys_setuid`. -/
def setuid (uid : UInt64) : Int × Creds := c.onUser fun root ids => setId root ids uid

/-- `sys_setgid`. -/
def setgid (gid : UInt64) : Int × Creds := c.onGroup fun root ids => setId root ids gid

/-- `sys_setreuid`. -/
def setreuid (ruid euid : UInt64) : Int × Creds :=
  c.onUser fun root ids => setReId root ids ruid euid

/-- `sys_setregid`. -/
def setregid (rgid egid : UInt64) : Int × Creds :=
  c.onGroup fun root ids => setReId root ids rgid egid

/-- `sys_setresuid`. -/
def setresuid (ruid euid suid : UInt64) : Int × Creds :=
  c.onUser fun root ids => setResId root ids ruid euid suid

/-- `sys_setresgid`. -/
def setresgid (rgid egid sgid : UInt64) : Int × Creds :=
  c.onGroup fun root ids => setResId root ids rgid egid sgid

end Creds

/-- A call with its arguments. -/
inductive CredCall where
  | setuid (uid : UInt64)
  | setgid (gid : UInt64)
  | setreuid (ruid euid : UInt64)
  | setregid (rgid egid : UInt64)
  | setresuid (ruid euid suid : UInt64)
  | setresgid (rgid egid sgid : UInt64)

/-- The identities after a call. -/
def Creds.step : CredCall → Creds
  | .setuid uid => (c.setuid uid).2
  | .setgid gid => (c.setgid gid).2
  | .setreuid ruid euid => (c.setreuid ruid euid).2
  | .setregid rgid egid => (c.setregid rgid egid).2
  | .setresuid ruid euid suid => (c.setresuid ruid euid suid).2
  | .setresgid rgid egid sgid => (c.setresgid rgid egid sgid).2

/-! ### Calls without root -/

/-- The identities as a set. -/
def Ids.set (ids : Ids) : Finset UInt32 := {ids.real, ids.effective, ids.saved}

variable {ids : Ids}

theorem Ids.mem_set {id} : id ∈ ids.set ↔ id = ids.real ∨ id = ids.effective ∨ id = ids.saved := by
  rw [set, mem_insert, mem_insert, mem_singleton]

theorem Ids.set_subset {s} (hreal : ids.real ∈ s) (heffective : ids.effective ∈ s)
    (hsaved : ids.saved ∈ s) : ids.set ⊆ s := by
  intro id hid
  rcases Ids.mem_set.mp hid with rfl | rfl | rfl
  · exact hreal
  · exact heffective
  · exact hsaved

theorem Ids.real_mem (ids : Ids) : ids.real ∈ ids.set := Ids.mem_set.mpr (.inl rfl)

theorem Ids.saved_mem (ids : Ids) : ids.saved ∈ ids.set := Ids.mem_set.mpr (.inr (.inr rfl))

variable (ids : Ids)

theorem setId_subset (id : UInt64) : (setId false ids id).2.set ⊆ ids.set := by
  unfold setId
  rw [if_neg Bool.false_ne_true]
  split
  case isFalse => exact Finset.Subset.refl _
  case isTrue hid =>
  refine Ids.set_subset ids.real_mem ?_ ids.saved_mem
  rcases hid with rfl | rfl <;> rw [UInt32.toUInt32_toUInt64]
  · exact ids.real_mem
  · exact ids.saved_mem

theorem setReId_subset (real effective : UInt64) :
    (setReId false ids real effective).2.set ⊆ ids.set := by
  unfold setReId
  dsimp only
  split
  · exact Finset.Subset.refl _
  case isFalse hallow =>
  have hreal : newId ids.real real ∈ ids.set := by
    refine Ids.mem_set.mpr ?_
    tauto
  have heffective : newId ids.effective effective ∈ ids.set := by
    refine Ids.mem_set.mpr ?_
    tauto
  refine Ids.set_subset hreal heffective ?_
  split
  · exact heffective
  · exact ids.saved_mem

theorem setResId_subset (real effective saved : UInt64) :
    (setResId false ids real effective saved).2.set ⊆ ids.set := by
  unfold setResId
  dsimp only
  split
  · exact Finset.Subset.refl _
  case isFalse hallow =>
  apply Ids.set_subset
  all_goals
    refine Ids.mem_set.mpr ?_
    tauto

variable {ids} {c : Creds}

theorem Creds.isRoot_eq_false (h : 0 ∉ c.user.set) : c.isRoot = false := by
  refine decide_eq_false fun hroot => h ?_
  rw [← hroot]
  exact Ids.mem_set.mpr (.inr (.inl rfl))

/-- A call without root takes its identities from those there are. -/
theorem Creds.step_subset (h : 0 ∉ c.user.set) (call : CredCall) :
    (c.step call).user.set ⊆ c.user.set ∧ (c.step call).group.set ⊆ c.group.set := by
  have hroot := Creds.isRoot_eq_false h
  have hrefl : ∀ s : Finset UInt32, s ⊆ s := Finset.Subset.refl
  cases call with
  | setuid uid =>
    refine ⟨?_, hrefl _⟩
    show (setId c.isRoot c.user uid).2.set ⊆ _
    rw [hroot]
    exact setId_subset c.user uid
  | setgid gid =>
    refine ⟨hrefl _, ?_⟩
    show (setId c.isRoot c.group gid).2.set ⊆ _
    rw [hroot]
    exact setId_subset c.group gid
  | setreuid ruid euid =>
    refine ⟨?_, hrefl _⟩
    show (setReId c.isRoot c.user ruid euid).2.set ⊆ _
    rw [hroot]
    exact setReId_subset c.user ruid euid
  | setregid rgid egid =>
    refine ⟨hrefl _, ?_⟩
    show (setReId c.isRoot c.group rgid egid).2.set ⊆ _
    rw [hroot]
    exact setReId_subset c.group rgid egid
  | setresuid ruid euid suid =>
    refine ⟨?_, hrefl _⟩
    show (setResId c.isRoot c.user ruid euid suid).2.set ⊆ _
    rw [hroot]
    exact setResId_subset c.user ruid euid suid
  | setresgid rgid egid sgid =>
    refine ⟨hrefl _, ?_⟩
    show (setResId c.isRoot c.group rgid egid sgid).2.set ⊆ _
    rw [hroot]
    exact setResId_subset c.group rgid egid sgid

/-- Whatever a process without identity 0 calls, it keeps to the identities it had. -/
theorem Creds.subset_after_calls (h : 0 ∉ c.user.set) (calls : List CredCall) :
    (calls.foldl Creds.step c).user.set ⊆ c.user.set ∧
      (calls.foldl Creds.step c).group.set ⊆ c.group.set ∧
      0 ∉ (calls.foldl Creds.step c).user.set := by
  induction calls generalizing c with
  | nil => exact ⟨Finset.Subset.refl _, Finset.Subset.refl _, h⟩
  | cons call calls ih =>
    obtain ⟨huser, hgroup⟩ := Creds.step_subset h call
    obtain ⟨huser', hgroup', hzero⟩ := ih fun hmem => h (huser hmem)
    exact ⟨huser'.trans huser, hgroup'.trans hgroup, hzero⟩

/-- A user with a saved identity from before, who swaps identities and asks for 0. -/
theorem Creds.subset_after_swap :
    ((([.setreuid (-1) 1001, .setuid 0, .setresuid 1001 1000 0, .setgid 100] : List CredCall).foldl
      Creds.step ⟨⟨1000, 1000, 1001⟩, ⟨100, 100, 100⟩⟩).user.set ⊆ {1000, 1001}) := by
  have hsubset := Creds.subset_after_calls (c := ⟨⟨1000, 1000, 1001⟩, ⟨100, 100, 100⟩⟩) (by decide)
    [.setreuid (-1) 1001, .setuid 0, .setresuid 1001 1000 0, .setgid 100]
  exact hsubset.1.trans (by decide)

end Kurios.Proc
