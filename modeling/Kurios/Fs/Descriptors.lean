import Kurios.Fs.Sockets

/-!
Descriptors at the level of system calls (`kernel/syscall/syscall.c`): which file a call acts on,
and how many descriptors a process may have.

The calls treat the descriptors 0 to 2 without a look at the table (`descriptors_follow_iff`).
`fd_table_alloc` compares the number of open descriptors with the soft limit as an `int`, and
`fd_table_alloc_at`, which `vfs_dup2` and `F_DUPFD` use, with no limit (`nofile_enforced`).
-/

namespace Kurios.Fs

open Base FileState Sockets Function List

variable (s : FileState) (t : Nat)

/-! ### The file that a call acts on -/

/-- What a call acts on: an open file, the terminal, or nothing, with result 0 or `-EBADF`. -/
inductive Target where
  | file (f : Nat)
  | terminal
  | nothing
  | badDescriptor
deriving DecidableEq, Repr

/-- The file at a descriptor. -/
def fileAt (fd : Nat) : Target := ((fdTableGet s t fd).map .file).getD .badDescriptor

/-- `sys_read`, with a buffer in user space. The descriptor is passed on as an `int`. -/
def sysRead (fd count : Nat) : Target :=
  if count = 0 then .nothing
  else if fd = 0 then .terminal
  else if fd > 2 then fileAt s t (fd % 2 ^ 32)
  else .badDescriptor

/-- `sys_write`, with a buffer in user space. -/
def sysWrite (fd count : Nat) : Target :=
  if fd = 0 then .badDescriptor
  else if count = 0 then .nothing
  else fileAt s t (fd % 2 ^ 32)

/-- `sys_close`. `vfs_close` returns nothing. -/
def sysClose (fd : Nat) : Target :=
  if fd ≤ 2 then .badDescriptor
  else if fd ≥ fdMax then .badDescriptor
  else ((fdTableGet s t fd).map .file).getD .nothing

/-- The calls act on the file that is installed at the descriptor, if there is one. -/
def FollowsTable (fd count : Nat) : Prop :=
  sysRead s t fd count = fileAt s t fd ∧ sysWrite s t fd count = fileAt s t fd ∧
    sysClose s t fd = fileAt s t fd

variable {s t}

theorem fileAt_cases (s : FileState) (t fd : Nat) :
    (fdTableGet s t fd = none ∧ fileAt s t fd = .badDescriptor) ∨
      ∃ f, fdTableGet s t fd = some f ∧ fileAt s t fd = .file f := by
  unfold fileAt
  cases fdTableGet s t fd with
  | none => exact .inl ⟨rfl, rfl⟩
  | some f => exact .inr ⟨f, rfl, rfl⟩

/-- The conversion to `int` matters for descriptors that do not fit. -/
theorem fileAt_int (fd : Nat) : fileAt s t (fd % 2 ^ 32) = fileAt s t fd ↔
    (2 ^ 32 ≤ fd → fdTableGet s t (fd % 2 ^ 32) = none) := by
  by_cases hfits : fd < 2 ^ 32
  · rw [Nat.mod_eq_of_lt hfits]
    exact iff_of_true rfl fun hle => absurd hfits (not_lt.mpr hle)
  have hbad : fileAt s t fd = .badDescriptor := by
    rw [fileAt, fdTableGet, if_neg (by unfold fdMax; omega)]
    rfl
  rw [hbad]
  obtain ⟨hnone, heq⟩ | ⟨f, hsome, heq⟩ := fileAt_cases s t (fd % 2 ^ 32)
  · exact iff_of_true heq fun _ => hnone
  · rw [heq, hsome]
    exact iff_of_false nofun fun h => nomatch h (not_lt.mp hfits)

/-- **The table and the calls.** A call for at least one byte acts on what is installed at the
descriptor, and the others do not, exactly in these cases. -/
theorem descriptors_follow_iff (s : FileState) (t : Nat) (fd count : Nat) :
    FollowsTable s t fd count ↔ count ≠ 0 ∧ fd ≠ 0 ∧
      (fd ≤ 2 → fdTableGet s t fd = none) ∧
      (2 < fd → fd < fdMax → fdTableGet s t fd ≠ none) ∧
      (2 ^ 32 ≤ fd → fdTableGet s t (fd % 2 ^ 32) = none) := by
  unfold FollowsTable sysRead sysWrite sysClose
  rw [← fileAt_int]
  obtain ⟨hget, hat⟩ | ⟨f, hget, hat⟩ := fileAt_cases s t fd
  all_goals
    rw [hat, hget]
    by_cases hcount : count = 0
    · simp [hcount]
    by_cases hzero : fd = 0
    · simp [hcount, hzero]
    by_cases hstd : fd ≤ 2
  · simp [hcount, hzero, hstd]
  · simp [hcount, hzero, hstd, not_le.mp hstd, and_comm]
  · simp [hcount, hzero, hstd]
  · have hlt := (fdTableGet_spec hget).1
    simp [hcount, hzero, hstd, not_le.mp hstd, not_le.mpr hlt]

/-- A new process with its standard files. -/
def newProcess : List FileCall := [.create 0 5 [1, 2, 3]]

/-- A process reads from the terminal whatever is installed at 0, it cannot close what is
installed at 1, and closes what is not installed at 7. -/
theorem calls_ignore_table : ∃ s, run step start newProcess = some s ∧
    fdTableGet s 0 0 = some 1 ∧ sysRead s 0 0 1 = .terminal ∧
    fdTableGet s 0 1 = some 2 ∧ sysClose s 0 1 = .badDescriptor ∧
    fdTableGet s 0 7 = none ∧ sysClose s 0 7 = .nothing := by
  decide +kernel

/-! ### The limit -/

/-- `(int)rlim_cur`. -/
def intLimit (cur : BitVec 64) : Int := (cur.setWidth 32).toInt

variable {cur : BitVec 64}

/-- The calls of the process with table `t` and soft limit `cur`. A negative limit refuses every
descriptor, as 0 does. `dup2` to a free descriptor and `F_DUPFD` are called below the limit. -/
def BelowLimit (cur : BitVec 64) (t : Nat) (s : FileState) : FileCall → Prop
  | .open t' _ _ limit _ | .dup t' _ limit => t' = t ∧ limit = (intLimit cur).toNat
  | .dup2 t' _ new => t' = t ∧ (openEntries s t < cur.toNat ∨ (fdTableGet s t new).isSome)
  | .dupfd t' .. => t' = t ∧ openEntries s t < cur.toNat
  | .close t' _ => t' = t
  | _ => False

instance (s : FileState) (c : FileCall) : Decidable (BelowLimit cur t s c) := by
  induction c using FileCall.casesOn <;> unfold BelowLimit <;> infer_instance

/-- The limit that is compared is at most the soft limit. -/
theorem intLimit_le (cur : BitVec 64) : (intLimit cur).toNat ≤ cur.toNat := by
  have hmod : (cur.setWidth 32).toNat ≤ cur.toNat := by
    exact Nat.mod_le _ _
  rw [intLimit, BitVec.toInt_eq_toNat_cond]
  split <;> omega

theorem vfsDup_entry {k limit old} (hk : s.entry k = none)
    (hnew : ∀ fd ∈ freeFd s t limit, k ≠ (t, fd)) : (vfsDup s t old limit).entry k = none := by
  unfold vfsDup
  split
  · exact hk
  simp only
  split
  · exact hk
  case h_2 fd s' heq =>
  have hfree := freeFd_of_fdTableAlloc heq
  have hne : k ≠ (t, fd) := hnew fd hfree
  obtain ⟨-, -, rfl⟩ := fdTableAlloc_spec heq
  exact (update_of_ne hne _ _).trans hk

theorem fcntlDupfd_entry {old low} : ∃ new, ∀ k, s.entry k = none → k ≠ (t, new) →
    (fcntlDupfd s t old low).entry k = none := by
  unfold fcntlDupfd
  split
  · exact ⟨0, fun k hk _ => hk⟩
  split
  · exact ⟨0, fun k hk _ => hk⟩
  case h_2 fd _ =>
  refine ⟨fd, fun k hk hne => ?_⟩
  simp only
  split
  · exact hk
  case h_2 heq =>
    obtain ⟨-, -, rfl⟩ := fdTableAllocAt_spec heq
    exact (update_of_ne hne _ _).trans hk

/-- A call opens at most one descriptor, and none at the limit. -/
theorem opens_below {c : FileCall} {s' : FileState} (hbelow : BelowLimit cur t s c)
    (hstep : s.step c = some s') : ∃ new : Option Nat,
      (∀ k, s.entry k = none → (∀ fd ∈ new, k ≠ (t, fd)) → s'.entry k = none) ∧
        (new.isSome → openEntries s t < cur.toNat) := by
  have hfree : (freeFd s t (intLimit cur).toNat).isSome → openEntries s t < cur.toNat := by
    intro hsome
    obtain ⟨fd, hfd⟩ := Option.isSome_iff_exists.mp hsome
    exact (freeFd_spec hfd).1.trans_le (intLimit_le cur)
  cases c with
  | «open» t' f node limit opened =>
    obtain ⟨rfl, rfl⟩ := hbelow
    obtain ⟨-, rfl⟩ := ite_eq_some hstep
    exact ⟨_, fun k hk hnew => vfsOpen_entry opened hk hnew, hfree⟩
  | dup t' old limit =>
    obtain ⟨rfl, rfl⟩ := hbelow
    obtain ⟨-, rfl⟩ := ite_eq_some hstep
    exact ⟨_, fun k hk hnew => vfsDup_entry hk hnew, hfree⟩
  | dup2 t' old new =>
    obtain ⟨rfl, hroom⟩ := hbelow
    obtain ⟨-, rfl⟩ := ite_eq_some hstep
    obtain hlt | hopen := hroom
    · exact ⟨some new, fun k hk hnew => vfsDup2_entry hk fun _ => hnew new rfl, fun _ => hlt⟩
    refine ⟨none, fun k hk _ => vfsDup2_entry hk ?_, nofun⟩
    rintro - rfl
    simp [fdTableGet, hk] at hopen
  | dupfd t' old low =>
    obtain ⟨rfl, hlt⟩ := hbelow
    obtain ⟨-, rfl⟩ := ite_eq_some hstep
    obtain ⟨new, hdup⟩ := fcntlDupfd_entry
    exact ⟨some new, fun k hk hnew => hdup k hk (hnew new rfl), fun _ => hlt⟩
  | close t' fd =>
    obtain ⟨-, rfl⟩ := ite_eq_some hstep
    exact ⟨none, fun k hk _ => vfsClose_entry hk, nofun⟩
  | create | pipe | clone | destroy => cases hbelow

theorem openEntries_step {c : FileCall} {s' : FileState} (hbelow : BelowLimit cur t s c)
    (hstep : s.step c = some s') : openEntries s' t ≤ max (openEntries s t) cur.toNat := by
  obtain ⟨new, hopens, hroom⟩ := opens_below hbelow hstep
  have hle : openEntries s' t ≤ openEntries s t + new.toFinset.card := by
    rw [openEntries_eq_card, openEntries_eq_card]
    refine le_trans (Finset.card_le_card fun fd hfd => ?_) (Finset.card_union_le _ _)
    have := hopens (t, fd)
    simp only [Finset.mem_filter, Finset.mem_union, Option.mem_toFinset,
      Option.isSome_iff_ne_none] at hfd ⊢
    grind
  cases new with
  | none => exact le_max_of_le_left hle
  | some n => exact le_max_of_le_right (hle.trans (hroom rfl))

/-- **The limit.** From any state on, the calls of the process take the number of its descriptors
at most to the limit, and below it an allocation with a free entry succeeds. -/
theorem nofile_enforced (hcur : min cur.toNat fdMax ≤ intLimit cur) {before : FileState}
    {calls : List FileCall} (hrun : GuardedRun step (BelowLimit cur t) before calls s) :
    openEntries s t ≤ max (openEntries before t) cur.toNat ∧
    (∀ fd f, fd < fdMax → s.entry (t, fd) = none → fdTableAllocAt s t fd f ≠ none ∧
      (fdTableAlloc s t f (intLimit cur).toNat = none → cur.toNat ≤ openEntries s t)) := by
  constructor
  · refine hrun.inv (fun s => openEntries s t ≤ max (openEntries before t) cur.toNat) ?_
      (le_max_left ..)
    intro s c s' hs hbelow hstep
    exact (openEntries_step hbelow hstep).trans (max_le hs (le_max_right ..))
  intro fd f hfd hnone
  constructor
  · rw [fdTableAllocAt, if_neg]
    · simp
    · simp [hnone, hfd]
  intro hrefused
  -- The table has a free entry, so that fewer than `FD_MAX` are open.
  have hfree : openEntries s t < (range fdMax).length :=
    length_filter_lt_length_iff_exists.mpr ⟨fd, mem_range.mpr hfd, by simp [hnone]⟩
  rw [length_range] at hfree
  rw [fdTableAlloc, Option.map_eq_none_iff, freeFd] at hrefused
  split at hrefused
  · omega
  have := find?_eq_none.mp hrefused fd (mem_range.mpr hfd)
  simp [hnone] at this

/-- At its limit of 3 a process gets no fourth descriptor. -/
theorem nofile_enforced_three : ∃ s, GuardedRun step (BelowLimit 3 1) SocketState.stdio
      [.open 1 30 7 3 true, .dup2 1 0 1, .close 1 2, .dup 1 0 3] s ∧ openEntries s 1 ≤ 3 := by
  apply exists_of (by decide +kernel)
  intro s hrun
  exact (nofile_enforced (by decide) hrun).1.trans (by decide +kernel)

/-- `dup2` and `F_DUPFD` go past a limit of 4, and a limit of `2 ^ 32` is one of 0. -/
theorem nofile_exceeded : (∃ s, run step start (newProcess ++ [.open 0 4 7 4 true]) = some s ∧
      openEntries s 0 = 4 ∧ openEntries (vfsDup2 s 0 3 9) 0 = 5 ∧
      openEntries (fcntlDupfd s 0 3 9) 0 = 5) ∧
    fdTableAlloc start 0 1 (intLimit 0x100000000).toNat = none := by
  decide +kernel

end Kurios.Fs
