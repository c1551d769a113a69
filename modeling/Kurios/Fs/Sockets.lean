import Kurios.Fs.OpenFiles

/-!
Socket descriptors: `sys_socket`, `sys_accept`, `sys_sendto`, `sys_recvfrom`, `sys_close` and
`sys_dup2` of `kernel/syscall/syscall.c`.

Sockets are in one table for all processes, `socket_fds`, and their numbers are those of its
slots. The descriptor tables of the processes (`Fs.Files`) know nothing of it: the first socket is
number 0, which is standard input as well, every process can use every socket, and `close` ends a
file at most (`socket_descriptors_shared`). `per_process` is the result for calls that avoid all
of this.

The sockets themselves are only known by their address.
-/

namespace Kurios.Fs.Sockets

open Base Function Option List

variable {dst f fd i limit new node old sockfd src t : Nat}

/-- `MAX_SOCKET_FDS`. -/
def maxSocketFds : Nat := 256

def afUnix : Nat := 1
def afInet : Nat := 2
def sockStream : Nat := 1
def sockDgram : Nat := 2

/-- `fds` is `socket_fds`, and the table of process `p` in `files` is at `p`. The rest is a record
of the past: `held p` are the descriptors that `p` has from `socket`, `accept` and `fork` and has
not closed, `owned p` the sockets that `p` or an ancestor before the fork made, and `used` who
has used which socket. -/
structure SocketState where
  files : FileState
  fds : Nat → Option Nat
  held : Nat → Finset Nat
  owned : Nat → Finset Nat
  used : List (Nat × Nat)

namespace SocketState

/-- No sockets yet. -/
def start (files : FileState) : SocketState :=
  ⟨files, fun _ => none, fun _ => ∅, fun _ => ∅, []⟩

variable (s : SocketState)

/-- The first free slot. -/
def freeSlot : Option Nat :=
  (List.range maxSocketFds).find? fun i => (s.fds i).isNone

/-- The socket `x` in slot `i`, for process `p`. -/
def install (p i x : Nat) : SocketState :=
  { s with
    fds := update s.fds i (some x)
    held := update s.held p (insert i (s.held p))
    owned := update s.owned p (insert x (s.owned p)) }

/-- The socket of a descriptor. -/
def socketOf (sockfd : Nat) : Option Nat :=
  if sockfd ≥ maxSocketFds then none else s.fds sockfd

/-- `sys_socket`, where `sock` is the result of `socket_create` and `unix` that of
`unix_socket_create`. -/
def sysSocket (p domain type : Nat) (sock : Option Nat) (unix : Bool) : Int × SocketState :=
  if domain ≠ afInet ∧ domain ≠ afUnix then (-97, s)
  else if type ≠ sockDgram ∧ type ≠ sockStream then (-95, s)
  else
    match sock with
    | none => (-24, s)
    | some x =>
      if domain = afUnix ∧ !unix then (-24, s)
      else
        match s.freeSlot with
        | none => (-24, s)
        | some i => (i, s.install p i x)

/-- `sys_accept`, where `conn` is the socket of a connection, or the error if there is none, and
`copied` says whether its address could be returned. -/
def sysAccept (p sockfd : Nat) (conn : Except Int Nat) (copied : Bool) : Int × SocketState :=
  match s.socketOf sockfd with
  | none => (-9, s)
  | some listener =>
    let s := { s with used := (p, listener) :: s.used }
    match conn with
    | .error err => (err, s)
    | .ok x =>
      match s.freeSlot with
      | none => (-24, s)
      | some i => if copied then (i, s.install p i x) else (-14, s)

/-- `sys_sendto` and `sys_recvfrom`: `tooLong` is the error for a length over 64 KB, `failed` one
before the socket is used, and `ret` what the socket returns. -/
def transfer (tooLong : Int) (s : SocketState) (p sockfd len : Nat) (failed : Option Int)
    (ret : Int) : Int × SocketState :=
  match s.socketOf sockfd with
  | none => (-9, s)
  | some x =>
    if len > 65536 then (tooLong, s)
    else
      match failed with
      | some err => (err, s)
      | none => (ret, { s with used := (p, x) :: s.used })

def sysSendto := transfer (-90)

def sysRecvfrom := transfer (-22)

/-- `sys_close`. -/
def sysClose (p fd : Nat) : Int × SocketState :=
  if fd ≤ 2 ∨ fd ≥ fdMax then (-9, s)
  else
    (0, { s with
      files := vfsClose s.files p fd
      held := update s.held p ((s.held p).erase fd) })

/-- `sys_dup2`. -/
def sysDup2 (p old new : Nat) : SocketState :=
  if new < 3 ∨ old < 3 then s
  else { s with files := vfsDup2 s.files p (old % 2 ^ 32) (new % 2 ^ 32) }

inductive Call where
  | socket (p domain type : Nat) (sock : Option Nat) (unix : Bool)
  | accept (p sockfd : Nat) (conn : Except Int Nat) (copied : Bool)
  | sendto (p sockfd len : Nat) (failed : Option Int) (ret : Int)
  | recvfrom (p sockfd len : Nat) (failed : Option Int) (ret : Int)
  | open (p f node limit : Nat) (opened : Bool)
  | dup2 (p old new : Nat)
  | close (p fd : Nat)
  | fork (p child : Nat)

/-- The process that makes a call. -/
def Call.caller : Call → Nat
  | socket p .. | accept p .. | sendto p .. | recvfrom p .. | .open p .. | dup2 p .. | close p ..
  | fork p .. => p

/-- One call, by a process that exists. -/
def step (c : Call) : Option SocketState :=
  if c.caller ∉ s.files.tables then none
  else
    match c with
    | .socket p domain type sock unix => some (s.sysSocket p domain type sock unix).2
    | .accept p sockfd conn copied => some (s.sysAccept p sockfd conn copied).2
    | .sendto p sockfd len failed ret => some (s.sysSendto p sockfd len failed ret).2
    | .recvfrom p sockfd len failed ret => some (s.sysRecvfrom p sockfd len failed ret).2
    | .open p f node limit opened =>
      if f ∈ s.files.live then none
      else some { s with files := vfsOpen s.files p f node limit opened }
    | .dup2 p old new => some (s.sysDup2 p old new)
    | .close p fd => some (s.sysClose p fd).2
    | .fork p child =>
      if child ∈ s.files.tables then none
      else
        some { s with
          files := fdTableClone s.files p child
          held := update s.held child (s.held p)
          owned := update s.owned child (s.owned p) }

/-- A socket descriptor is no file, a process has used sockets of its own or of its ancestors only,
and the slots in use are the open socket descriptors. -/
structure PerProcess (s : SocketState) : Prop where
  apart : ∀ p, ∀ i ∈ s.held p, s.files.entry (p, i) = none
  isolated : ∀ u ∈ s.used, u.2 ∈ s.owned u.1
  slots : (Finset.range maxSocketFds).filter (fun i => (s.fds i).isSome) =
    s.files.tables.biUnion s.held

/-- No call meets a file and a socket of one number, uses a descriptor that the process does not
have, or closes the last descriptor of a socket. -/
def Careful : Call → Prop
  | .socket p .. => ∀ i ∈ s.freeSlot, s.files.entry (p, i) = none
  | .accept p sockfd .. =>
    (sockfd ∈ s.held p ∨ s.socketOf sockfd = none) ∧ ∀ i ∈ s.freeSlot, s.files.entry (p, i) = none
  | .sendto p sockfd .. | .recvfrom p sockfd .. => sockfd ∈ s.held p ∨ s.socketOf sockfd = none
  | .open p _ _ limit _ => ∀ fd ∈ freeFd s.files p limit, fd ∉ s.held p
  | .dup2 p old new =>
    3 ≤ old → 3 ≤ new → (fdTableGet s.files p (old % 2 ^ 32)).isSome → new % 2 ^ 32 ∉ s.held p
  | .close p fd => fd ∈ s.held p → fd ≤ 2 ∨ ∃ q ∈ s.files.tables, q ≠ p ∧ fd ∈ s.held q
  | .fork .. => True

instance (s : SocketState) (c : Call) : Decidable (s.Careful c) := by
  cases c <;> unfold Careful <;> infer_instance

end SocketState

/-! ### Which entries a call can fill -/

section Entries

variable {s : FileState} {k : Nat × Nat} {t : Nat}

theorem vfsOpen_entry (opened : Bool) (hk : s.entry k = none)
    (hnew : ∀ fd ∈ freeFd s t limit, k ≠ (t, fd)) :
    (vfsOpen s t f node limit opened).entry k = none := by
  unfold vfsOpen
  simp only
  split
  · rw [(FileState.release_maps ..).2]
    exact hk
  case h_2 fd s' heq =>
  have hfree := freeFd_of_fdTableAlloc heq
  have hne : k ≠ (t, fd) := hnew fd hfree
  obtain ⟨-, -, rfl⟩ := fdTableAlloc_spec heq
  split
  · exact (update_of_ne hne _ _).trans hk
  · rw [(FileState.release_maps ..).2]
    exact (update_of_ne hne _ _).trans ((update_of_ne hne _ _).trans hk)

theorem vfsClose_entry (hk : s.entry k = none) : (vfsClose s t fd).entry k = none := by
  by_cases hne : k = (t, fd)
  · unfold vfsClose
    split
    · exact hk
    · rw [hne]
      exact update_self ..
  · rw [vfsClose_entry_of_ne hne]
    exact hk

theorem vfsDup2_entry (hk : s.entry k = none) (hne : (fdTableGet s t old).isSome → k ≠ (t, new)) :
    (vfsDup2 s t old new).entry k = none := by
  unfold vfsDup2
  simp only
  split
  · exact hk
  split
  · exact hk
  case h_2 hget =>
  split
  · exact vfsClose_entry hk
  case h_2 heq =>
    obtain ⟨-, -, rfl⟩ := fdTableAllocAt_spec heq
    exact (update_of_ne (hne (by rw [hget]; rfl)) _ _).trans (vfsClose_entry hk)

theorem fdTableClone_entry (hne : src ≠ dst) :
    (∀ k, k.1 ≠ dst → (fdTableClone s src dst).entry k = s.entry k) ∧
      ∀ fd, s.entry (src, fd) = none → (fdTableClone s src dst).entry (dst, fd) = none := by
  unfold fdTableClone
  refine forRange_preserves (P := fun s' : FileState =>
    (∀ k, k.1 ≠ dst → s'.entry k = s.entry k) ∧
      ∀ fd, s.entry (src, fd) = none → s'.entry (dst, fd) = none) ?_ ?_
  · exact ⟨fun k hk => if_neg hk, fun fd _ => if_pos rfl⟩
  rintro i s' ⟨hother, hown⟩
  unfold cloneEntry
  split
  · exact ⟨hother, hown⟩
  case h_2 f heq =>
  constructor
  · intro k hk
    exact (update_of_ne (fun h => hk (congrArg Prod.fst h)) _ _).trans (hother k hk)
  intro fd hfd
  have hne' : (dst, fd) ≠ (dst, i) := by
    rintro ⟨⟩
    rw [hother _ hne, hfd] at heq
    cases heq
  exact (update_of_ne hne' _ _).trans (hown fd hfd)

theorem fdTableClone_tables : (fdTableClone s src dst).tables = insert dst s.tables := by
  refine forRange_preserves (P := fun s' : FileState => s'.tables = insert dst s.tables) rfl ?_
  intro i s' hs'
  unfold cloneEntry
  split <;> exact hs'

end Entries

namespace SocketState

/-! ### The invariant -/

/-- A descriptor that a process holds is a slot with a socket of its own or an ancestor. -/
structure Isolated (s : SocketState) : Prop extends s.PerProcess where
  present : ∀ u ∈ s.used, u.1 ∈ s.files.tables
  own : ∀ p, ∀ i ∈ s.held p, ∃ x, s.fds i = some x ∧ x ∈ s.owned p

variable {s s' : SocketState} {p : Nat}

theorem freeSlot_spec (h : s.freeSlot = some i) : i < maxSocketFds ∧ s.fds i = none := by
  have hnone : (s.fds i).isNone = true := by simpa using List.find?_some h
  exact ⟨mem_range.mp (mem_of_find?_eq_some h), isNone_iff_eq_none.mp hnone⟩

section

variable (h : s.Isolated)
include h

theorem Isolated.install (hp : p ∈ s.files.tables) (hi : s.freeSlot = some i)
    (hfile : s.files.entry (p, i) = none) (x : Nat) : (s.install p i x).Isolated := by
  obtain ⟨hlt, hnone⟩ := freeSlot_spec hi
  have hheld : ∀ q j, j ∈ (s.install p i x).held q ↔ j ∈ s.held q ∨ q = p ∧ j = i := by
    intro q j
    rcases eq_or_ne q p with rfl | hne
    · simp [SocketState.install, or_comm]
    · simp [SocketState.install, hne]
  have hown : ∀ q, s.owned q ⊆ (s.install p i x).owned q := by
    intro q
    rcases eq_or_ne q p with rfl | hne
    · simp [SocketState.install]
    · simp [SocketState.install, hne]
  refine ⟨⟨?apart, ?isolated, ?slots⟩, h.present, ?own⟩
  case apart =>
    intro q j hj
    obtain hj | ⟨rfl, rfl⟩ := (hheld q j).mp hj
    · exact h.apart q j hj
    · exact hfile
  case isolated =>
    intro u hu
    exact hown _ (h.isolated u hu)
  case slots =>
    ext j
    have hslots := congrArg (j ∈ ·) h.slots
    simp only [Finset.mem_filter, Finset.mem_range, Finset.mem_biUnion]
    simp only [hheld]
    rcases eq_or_ne j i with rfl | hne
    · refine ⟨fun _ => ⟨p, hp, .inr ⟨rfl, rfl⟩⟩, fun _ => ⟨hlt, ?_⟩⟩
      simp [SocketState.install]
    · simpa [SocketState.install, hne] using hslots
  case own =>
  intro q j hj
  obtain hj | ⟨rfl, rfl⟩ := (hheld q j).mp hj
  · obtain ⟨y, hy, hmem⟩ := h.own q j hj
    have hne : j ≠ i := by
      rintro rfl
      rw [hnone] at hy
      cases hy
    exact ⟨y, (update_of_ne hne _ _).trans hy, hown q hmem⟩
  · exact ⟨x, update_self .., by simp [SocketState.install]⟩

/-- The descriptor tables change, the sockets do not. -/
theorem Isolated.withFiles {files} (htables : files.tables = s.files.tables)
    (hent : ∀ q, ∀ i ∈ s.held q, files.entry (q, i) = none) :
    Isolated { s with files := files } where
  apart := hent
  __ := h
  slots := h.slots.trans (congrArg (Finset.biUnion · s.held) htables.symm)
  present := htables.symm ▸ h.present

section

variable (hp : p ∈ s.files.tables)
include hp

/-- The use of a descriptor that the process holds. -/
theorem Isolated.use {x} (hx : s.socketOf sockfd = some x)
    (hheld : sockfd ∈ s.held p ∨ s.socketOf sockfd = none) :
    Isolated { s with used := (p, x) :: s.used } := by
  have hmem : sockfd ∈ s.held p := hheld.resolve_right (by rw [hx]; exact nofun)
  obtain ⟨y, hy, hown⟩ := h.own p sockfd hmem
  have heq : s.fds sockfd = some x := by
    unfold socketOf at hx
    split at hx
    · cases hx
    · exact hx
  obtain rfl : y = x := some.inj (hy.symm.trans heq)
  refine { h with isolated := ?_, present := ?_ }
  · exact forall_mem_cons.mpr ⟨hown, h.isolated⟩
  · exact forall_mem_cons.mpr ⟨hp, h.present⟩

theorem Isolated.transfer (tooLong : Int) (len : Nat) (failed : Option Int) (ret : Int)
    (hheld : sockfd ∈ s.held p ∨ s.socketOf sockfd = none) :
    (SocketState.transfer tooLong s p sockfd len failed ret).2.Isolated := by
  unfold SocketState.transfer
  split
  · exact h
  case h_2 x hx =>
  split
  · exact h
  split
  · exact h
  · exact h.use hp hx hheld

section

variable (hfile : ∀ i ∈ s.freeSlot, s.files.entry (p, i) = none)
include hfile

theorem Isolated.sysSocket (domain type : Nat) (sock : Option Nat) (unix : Bool) :
    (s.sysSocket p domain type sock unix).2.Isolated := by
  unfold SocketState.sysSocket
  repeat' split
  case h_2 i hi => exact h.install hp hi (hfile i hi) _
  all_goals exact h

theorem Isolated.sysAccept (hheld : sockfd ∈ s.held p ∨ s.socketOf sockfd = none)
    (conn : Except Int Nat) (copied : Bool) : (s.sysAccept p sockfd conn copied).2.Isolated := by
  unfold SocketState.sysAccept
  split
  · exact h
  case h_2 listener hl =>
  have huse := h.use hp hl hheld
  simp only
  repeat' split
  case isTrue i hi _ => exact huse.install hp hi (hfile i hi) _
  all_goals exact huse

end

end

theorem Isolated.sysClose
    (hlast : fd ∈ s.held p → fd ≤ 2 ∨ ∃ q ∈ s.files.tables, q ≠ p ∧ fd ∈ s.held q) :
    (s.sysClose p fd).2.Isolated := by
  unfold SocketState.sysClose
  split
  · exact h
  case isFalse hrng =>
  have hheld : ∀ q, update s.held p ((s.held p).erase fd) q ⊆ s.held q := by
    intro q
    rcases eq_or_ne q p with rfl | hne
    · rw [update_self]
      exact Finset.erase_subset _ _
    · rw [update_of_ne hne]
  have htables : (vfsClose s.files p fd).tables = s.files.tables := vfsClose_tables ..
  refine ⟨⟨?apart, h.isolated, ?slots⟩, htables.symm ▸ h.present, ?own⟩
  case apart => exact fun q i hi => vfsClose_entry (h.apart q i (hheld q hi))
  case own => exact fun q i hi => h.own q i (hheld q hi)
  case slots =>
  refine h.slots.trans ?_
  rw [htables]
  ext j
  simp only [Finset.mem_biUnion]
  constructor <;> rintro ⟨q, hq, hj⟩
  · by_cases hgone : q = p ∧ j = fd
    · -- another process still has the descriptor
      obtain ⟨rfl, rfl⟩ := hgone
      obtain hsmall | ⟨r, hr, hne, hj'⟩ := hlast hj
      · exact absurd (.inl hsmall) hrng
      · exact ⟨r, hr, by rwa [update_of_ne hne]⟩
    refine ⟨q, hq, ?_⟩
    rcases eq_or_ne q p with rfl | hne
    · rw [update_self]
      exact Finset.mem_erase.mpr ⟨fun heq => hgone ⟨rfl, heq⟩, hj⟩
    · rwa [update_of_ne hne]
  · exact ⟨q, hq, hheld q hj⟩

theorem Isolated.fork {child} (hp : p ∈ s.files.tables) (hnew : child ∉ s.files.tables) :
    Isolated { s with
      files := fdTableClone s.files p child
      held := update s.held child (s.held p)
      owned := update s.owned child (s.owned p) } := by
  have hne : p ≠ child := fun heq => hnew (heq ▸ hp)
  obtain ⟨hother, hown⟩ := fdTableClone_entry hne
  refine ⟨⟨?apart, ?isolated, ?slots⟩, ?present, ?own⟩ <;> dsimp only
  case apart =>
    intro q i hi
    rcases eq_or_ne q child with rfl | hq
    · rw [update_self] at hi
      exact hown i (h.apart p i hi)
    · rw [update_of_ne hq] at hi
      exact (hother (q, i) hq).trans (h.apart q i hi)
  case isolated =>
    intro u hu
    have hu1 : u.1 ≠ child := fun heq => hnew (heq ▸ h.present u hu)
    rw [update_of_ne hu1]
    exact h.isolated u hu
  case slots =>
    refine h.slots.trans ?_
    have hsame : s.files.tables.biUnion (update s.held child (s.held p)) =
        s.files.tables.biUnion s.held := by
      refine Finset.biUnion_congr rfl fun q hq => ?_
      exact update_of_ne (fun heq : q = child => hnew (heq ▸ hq)) _ _
    rw [fdTableClone_tables, Finset.biUnion_insert, update_self, hsame]
    exact (Finset.union_eq_right.mpr (Finset.subset_biUnion_of_mem s.held hp)).symm
  case present =>
    intro u hu
    rw [fdTableClone_tables]
    exact Finset.mem_insert_of_mem (h.present u hu)
  case own =>
  intro q i hi
  rcases eq_or_ne q child with rfl | hq
  · rw [update_self] at hi ⊢
    exact h.own p i hi
  · rw [update_of_ne hq] at hi ⊢
    exact h.own q i hi

end

theorem vfsOpen_tables {s opened} : (vfsOpen s t f node limit opened).tables = s.tables := by
  unfold vfsOpen
  simp only
  split
  · exact (FileState.release_maps ..).1
  case h_2 heq =>
  obtain ⟨-, -, rfl⟩ := fdTableAlloc_spec heq
  split
  · rfl
  · exact (FileState.release_maps ..).1

theorem vfsDup2_tables {s} : (vfsDup2 s t old new).tables = s.tables := by
  unfold vfsDup2
  simp only
  split
  · rfl
  split
  · rfl
  split
  · exact vfsClose_tables ..
  case h_2 heq =>
    obtain ⟨-, -, rfl⟩ := fdTableAllocAt_spec heq
    exact vfsClose_tables ..

theorem Isolated.step {c} (h : s.Isolated) (hc : s.Careful c) (hstep : s.step c = some s') :
    s'.Isolated := by
  obtain ⟨hp, hstep⟩ := ite_none_left_eq_some.mp hstep
  rw [not_not] at hp
  cases c with
  | socket p domain type sock unix =>
    cases hstep
    exact h.sysSocket hp hc domain type sock unix
  | accept p sockfd conn copied =>
    cases hstep
    exact h.sysAccept hp hc.2 hc.1 conn copied
  | sendto | recvfrom =>
    cases hstep
    exact h.transfer hp _ _ _ _ hc
  | «open» p f node limit opened =>
    obtain ⟨-, ⟨⟩⟩ := ite_none_left_eq_some.mp hstep
    refine h.withFiles vfsOpen_tables fun q i hi => vfsOpen_entry opened (h.apart q i hi) ?_
    rintro fd hfd heq
    cases heq
    exact hc i hfd hi
  | dup2 p old new =>
    cases hstep
    unfold sysDup2
    split
    · exact h
    case isFalse hstd =>
    obtain ⟨hnew, hold⟩ := not_or.mp hstd
    refine h.withFiles vfsDup2_tables fun q i hi => vfsDup2_entry (h.apart q i hi) ?_
    rintro hopen ⟨⟩
    exact hc (not_lt.mp hold) (not_lt.mp hnew) hopen hi
  | close p fd =>
    cases hstep
    exact h.sysClose hc
  | fork p child =>
    obtain ⟨hnew, heq⟩ := ite_none_left_eq_some.mp hstep
    obtain rfl := some.inj heq
    exact h.fork hp hnew

theorem isolated_start (files : FileState) : (start files).Isolated where
  apart := by simp [start]
  isolated := by simp [start]
  slots := by
    ext i
    simp [start]
  present := by simp [start]
  own := by simp [start]

/-- **Socket descriptors.** In every run of calls that avoid the collisions, socket descriptors are
apart from files, used by those who have them, and the slots in use are the open descriptors. -/
theorem per_process (files : FileState) {calls : List Call}
    (hrun : GuardedRun step Careful (start files) calls s) : s.PerProcess :=
  (hrun.inv Isolated (fun _ _ _ h => h.step) (isolated_start files)).toPerProcess

/-- Process 1 with standard input and output. -/
def stdio : FileState := setupStdio (fdTableCreate .start 1) 1 5 0 [20, 21, 22]

/-- The same without. -/
def noStdio : FileState := fdTableCreate .start 1

/-- A socket that parent and child have, and each closes a descriptor. -/
def sharedSocket : List Call :=
  [.socket 1 afInet sockDgram (some 70) true, .fork 1 2, .sendto 2 0 10 none 10,
    .socket 2 afUnix sockStream (some 71) true, .accept 2 1 (.ok 72) true, .close 1 3]

theorem per_process_sharedSocket :
    ∃ s, GuardedRun step Careful (start noStdio) sharedSocket s ∧ s.held 1 = {0} ∧
      s.held 2 = {0, 1, 2} ∧ s.PerProcess := by
  apply exists_and_of₂ (by decide +kernel)
  intro s hrun _ _
  exact per_process noStdio hrun

/-- The first socket is number 0, a process sends through the socket of its parent that it never
had, and a socket that is closed keeps its slot. -/
theorem socket_descriptors_shared :
    ∃ s, run step (start stdio) [.fork 1 2, .socket 1 afInet sockDgram (some 70) true,
        .socket 1 afInet sockDgram (some 71) true, .socket 1 afInet sockDgram (some 72) true,
        .socket 1 afInet sockDgram (some 73) true, .sendto 2 3 10 none 10, .close 1 3] = some s ∧
      (0 ∈ s.held 1 ∧ s.files.entry (1, 0) = some 20) ∧ ((2, 73) ∈ s.used ∧ 73 ∉ s.owned 2) ∧
      ((s.fds 3).isSome = true ∧ 3 ∉ s.files.tables.biUnion s.held) := by
  decide +kernel

end SocketState

end Kurios.Fs.Sockets
