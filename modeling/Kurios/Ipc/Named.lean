import Kurios.Base.Count
import Kurios.Base.Loop
import Kurios.Base.Slots

/-!
How long named semaphores and message queues live: `kernel/ipc/sem.c` and
`kernel/ipc/mqueue.c`, which have the same code for it.

If every open that gets to an object finds a free handle, the reference count is the number of
handles and an object is freed when it is unlinked and has none (`Lifetime`). An open without a
handle keeps its reference, and an object that is unlinked while it is open keeps its name, so
that the name cannot be created again (`lifetime_broken`).
-/

namespace Kurios.Ipc

open Base Function Option List Prod

variable {name : List UInt8} {handles : Nat → Option Nat}

/-- `SEM_HANDLE_MAX` and `MQ_HANDLE_MAX`, and the room in `name` before the last zero. -/
def handleMax : Nat := 64
def nameMax : Nat := 255

/-- The size of the table, and the error for a bad handle. -/
structure IpcKind where
  slots : Nat
  badHandle : Int

/-- `SEM_MAX` with `EINVAL`, and `MQ_MAX` with `EBADF`. -/
def semaphores : IpcKind := ⟨256, -22⟩
def mqueues : IpcKind := ⟨128, -9⟩

structure IpcObject where
  name : List UInt8
  refcount : Int
  unlinked : Bool
deriving DecidableEq, Repr

/-- Objects by address; `unlinked` says of those that were ever made whether they are unlinked. -/
structure IpcState where
  obj : Nat → Option IpcObject
  table : Nat → Option Nat
  handles : Nat → Option Nat
  unlinked : Nat → Option Bool

namespace IpcState

variable (k : IpcKind)

section

variable (s : IpcState)

/-- `sem_find_by_name`, `mq_find_by_name`. -/
def findByName (name : List UInt8) : Option Nat :=
  findSlot k.slots s.table fun n => (s.obj n).any (·.name = name)

def setObj (n : Nat) (o : IpcObject) : IpcState :=
  { s with obj := update s.obj n (some o), unlinked := update s.unlinked n (some o.unlinked) }

/-- `sem_alloc_handle`, `mq_alloc_handle`. -/
def allocHandle (n : Nat) : Int × IpcState :=
  match freeSlot handleMax s.handles with
  | none => (-24, s)
  | some i => (i, { s with handles := update s.handles i (some n) })

/-- `sem_open_syscall`, `mq_open_syscall`, where `addr` is the memory for a new object. -/
def openName (name : List UInt8) (creat excl : Bool) (addr : Option Nat) : Option
    (Int × IpcState) :=
  if name.head? ≠ some 47 then some (-22, s)
  else
    match s.findByName k name with
    | some n =>
      (s.obj n).map fun o =>
        if excl then (-17, s)
        else if o.unlinked then (-2, s)
        else (s.setObj n { o with refcount := o.refcount + 1 }).allocHandle n
    | none =>
      if !creat then some (-2, s)
      else
        match freeSlot k.slots s.table, addr with
        | none, _ => some (-28, s)
        | some _, none => some (-12, s)
        | some i, some n =>
          some (({ s with table := update s.table i (some n) }.setObj n
            ⟨name.take nameMax, 1, false⟩).allocHandle n)

/-- The object is written, or taken out of the table and freed if it is unlinked and has no
references. -/
def settle (n : Nat) (o : IpcObject) : IpcState :=
  let s := s.setObj n o
  if o.refcount = 0 ∧ o.unlinked then
    { s with obj := update s.obj n none, table := clearSlot k.slots s.table n }
  else s

/-- `sem_close_syscall`, `mq_close_syscall`. -/
def close (handle : Nat) : Option (Int × IpcState) :=
  match s.handles handle with
  | none => some (k.badHandle, s)
  | some n =>
    (s.obj n).map fun o =>
      (0, { s with handles := update s.handles handle none }.settle k n
        { o with refcount := o.refcount - 1 })

/-- `sem_unlink_syscall`, `mq_unlink_syscall`. -/
def unlink (name : List UInt8) : Option (Int × IpcState) :=
  if name.head? ≠ some 47 then some (-22, s)
  else
    match s.findByName k name with
    | none => some (-2, s)
    | some n => (s.obj n).map fun o => (0, s.settle k n { o with unlinked := true })

end

inductive IpcCall where
  | open (name : List UInt8) (creat excl : Bool) (addr : Option Nat)
  | close (handle : Nat)
  | unlink (name : List UInt8)

/-- A call; new objects get memory of their own. -/
def step (s : IpcState) : IpcCall → Option IpcState
  | .open name creat excl addr =>
    if ∀ n ∈ addr, s.obj n = none then (s.openName k name creat excl addr).map snd else none
  | .close handle => (s.close k handle).map snd
  | .unlink name => (s.unlink k name).map snd

/-- An open gets to an object: to one with the name that is not unlinked, or to a new one. -/
def Reaches (s : IpcState) (name : List UInt8) (creat excl : Bool) (addr : Option Nat) : Bool :=
  name.head? == some 47 &&
    match s.findByName k name with
    | some n => !excl && (s.obj n).any (!·.unlinked)
    | none => creat && (freeSlot k.slots s.table).isSome && addr.isSome

/-- There is a handle for every open that gets to an object, and its name fits into that. -/
def Careful (s : IpcState) : IpcCall → Prop
  | .open name creat excl addr => s.Reaches k name creat excl addr →
      name.length ≤ nameMax ∧ (freeSlot handleMax s.handles).isSome
  | _ => True

instance (s : IpcState) (c : IpcCall) : Decidable (s.Careful k c) := by
  cases c <;> unfold Careful <;> infer_instance

def start : IpcState := ⟨fun _ => none, fun _ => none, fun _ => none, fun _ => none⟩

/-- The number of handles of an object. -/
def opens (s : IpcState) (n : Nat) : Nat := hits (Finset.range handleMax) s.handles n

/-- An object is there as long as it is not unlinked or has a handle, and counts its handles. -/
structure Lifetime (s : IpcState) : Prop where
  counted : ∀ n o, s.obj n = some o → o.refcount = s.opens n ∧ s.unlinked n = some o.unlinked
  freed : ∀ n, s.obj n = none ↔ s.unlinked n ≠ some false ∧ s.opens n = 0
  handle : ∀ i n, s.handles i = some n → i < handleMax
  table : Holds k.slots s.table fun n => s.obj n ≠ none
  names : ∀ n m o o', s.obj n = some o → s.obj m = some o' → o.name = o'.name → n = m

variable {k} {s s' : IpcState} {n i : Nat} {o : IpcObject}

theorem hits_put (hi : freeSlot handleMax s.handles = some i) (n m : Nat) :
    hits (Finset.range handleMax) (update s.handles i (some n)) m =
      s.opens m + if m = n then 1 else 0 := by
  have hnone : s.handles i = none := by simpa using List.find?_some hi
  have hmem : i ∈ Finset.range handleMax :=
    Finset.mem_range.mpr (mem_range.mp (mem_of_find?_eq_some hi))
  simpa [opens, eq_comm] using hits_set hmem hnone n m

theorem hits_drop (hi : i < handleMax) (hn : s.handles i = some n) (m : Nat) :
    hits (Finset.range handleMax) (update s.handles i none) m + (if m = n then 1 else 0) =
      s.opens m := by
  simpa [opens, eq_comm] using hits_clear (Finset.mem_range.mpr hi) hn m

namespace Lifetime

section

variable (h : Lifetime k s)
include h

/-- The object with a name is found. -/
theorem found_iff (name : List UInt8) (n : Nat) :
    s.findByName k name = some n ↔ ∃ o, s.obj n = some o ∧ o.name = name := by
  have hany : ∀ m, (s.obj m).any (·.name = name) = true ↔
      ∃ o, s.obj m = some o ∧ o.name = name := by
    intro m
    cases s.obj m <;> simp
  refine (h.table.find_iff (fun a b _ _ ha hb => ?_) n).trans ?_
  · obtain ⟨o, ho, hname⟩ := (hany a).mp ha
    obtain ⟨o', ho', hname'⟩ := (hany b).mp hb
    exact h.names a b o o' ho ho' (hname.trans hname'.symm)
  · rw [hany, and_iff_right_iff_imp]
    rintro ⟨o, ho, -⟩
    simp [ho]

/-- One object is written, made or freed. -/
theorem replace {val : Option IpcObject} {b : Bool} {table : Nat → Option Nat}
    (hhandle : ∀ i m, handles i = some m → i < handleMax)
    (hoth : ∀ m, m ≠ n → hits (Finset.range handleMax) handles m = s.opens m)
    (hval : ∀ o, val = some o → o.refcount = hits (Finset.range handleMax) handles n ∧
      o.unlinked = b ∧ ∀ m o', m ≠ n → s.obj m = some o' → o'.name ≠ o.name)
    (hnone : val = none ↔ b = true ∧ hits (Finset.range handleMax) handles n = 0)
    (htable : Holds k.slots table fun m => update s.obj n val m ≠ none) :
    Lifetime k ⟨update s.obj n val, table, handles, update s.unlinked n (some b)⟩ := by
  refine ⟨fun m o hm => ?_, fun m => ?_, hhandle, htable, fun m m' o o' hm hm' hname => ?_⟩
  · by_cases hmn : m = n
    · subst hmn
      obtain ⟨hcnt, hb, -⟩ := hval o (by simpa using hm)
      exact ⟨hcnt, by simp [hb]⟩
    · simp only [update_of_ne hmn] at hm ⊢
      exact ⟨(h.counted m o hm).1.trans (congrArg _ (hoth m hmn).symm), (h.counted m o hm).2⟩
  · by_cases hmn : m = n
    · subst hmn
      simpa [opens] using hnone
    · have hcnt := hoth m hmn
      simp only [update_of_ne hmn, h.freed m, opens] at hcnt ⊢
      rw [hcnt]
  by_cases hmn : m = n <;> by_cases hmn' : m' = n
  · exact hmn.trans hmn'.symm
  · subst hmn
    simp only [update_self, update_of_ne hmn'] at hm hm'
    exact absurd hname.symm ((hval o hm).2.2 m' o' hmn' hm')
  · subst hmn'
    simp only [update_self, update_of_ne hmn] at hm hm'
    exact absurd hname ((hval o' hm').2.2 m o hmn hm)
  · simp only [update_of_ne hmn, update_of_ne hmn'] at hm hm'
    exact h.names m m' o o' hm hm' hname

/-- An object gets a handle. -/
theorem allocHandle {t : Nat → Option Nat} (hfree : (freeSlot handleMax s.handles).isSome)
    (hcnt : o.refcount = s.opens n + 1)
    (hname : ∀ m o', m ≠ n → s.obj m = some o' → o'.name ≠ o.name) (hlinked : o.unlinked = false)
    (htable : Holds k.slots t fun m => update s.obj n (some o) m ≠ none) :
    Lifetime k (({ s with table := t }.setObj n o).allocHandle n).2 := by
  obtain ⟨i, hi⟩ := isSome_iff_exists.mp hfree
  have hmem := mem_range.mp (mem_of_find?_eq_some hi)
  have hhits := hits_put hi n
  simp only [IpcState.allocHandle, setObj, hi]
  refine h.replace (fun j m hj => ?_) (fun m hm => by simp [hhits, hm]) (fun o' ho' => ?_)
    (by simp [hlinked]) htable
  · by_cases hji : j = i
    · exact hji ▸ hmem
    · exact h.handle j m ((update_of_ne hji _ _).symm.trans hj)
  · cases ho'
    exact ⟨by simp [hhits, hcnt], rfl, hname⟩

variable {r : Int × IpcState}

theorem openName {creat excl addr} (hcare : s.Careful k (.open name creat excl addr))
    (haddr : ∀ n ∈ addr, s.obj n = none)
    (hopen : s.openName k name creat excl addr = some r) : Lifetime k r.2 := by
  simp only [Careful, Reaches, Bool.and_eq_true, beq_iff_eq, and_imp] at hcare
  unfold IpcState.openName at hopen
  split at hopen
  · cases hopen
    exact h
  case isFalse hslash =>
  have hcare := hcare (not_not.mp hslash)
  split at hopen
  case h_1 n hfind =>
    obtain ⟨o, ho, rfl⟩ := map_eq_some_iff.mp hopen
    split
    · exact h
    case isFalse hexcl =>
    split
    · exact h
    case isFalse hlinked =>
    have hfree := (hcare (by simp [hfind, hexcl, ho, hlinked])).2
    refine h.allocHandle hfree (congrArg (· + 1) (h.counted n o ho).1)
      (fun m o' hm ho' hsame => hm (h.names m n o' o ho' ho hsame)) (by simpa using hlinked)
      (h.table.congr fun m => ?_)
    by_cases hm : m = n <;> simp [hm, ho]
  case h_2 hfind =>
  split at hopen
  · cases hopen
    exact h
  case isFalse hcreat =>
  split at hopen
  · cases hopen
    exact h
  · cases hopen
    exact h
  case h_3 i n hi _ =>
  obtain ⟨hname, hfree⟩ := hcare (by simpa [hfind, hi] using hcreat)
  have hnone := haddr n rfl
  cases hopen
  refine h.allocHandle hfree (by simp [((h.freed n).mp hnone).2]) (fun m o' _ ho' hsame => ?_) rfl
    ((h.table.put hi (by simpa using hnone)).congr fun m => ?_)
  · rw [take_of_length_le hname] at hsame
    cases hfind.symm.trans ((h.found_iff name m).mpr ⟨o', ho', hsame⟩)
  · by_cases hm : m = n <;> simp [hm]

theorem settle (ho : s.obj n = some o) {o' : IpcObject} (hname : o'.name = o.name)
    (hhandle : ∀ i m, handles i = some m → i < handleMax)
    (hoth : ∀ m, m ≠ n → hits (Finset.range handleMax) handles m = s.opens m)
    (hcnt : o'.refcount = hits (Finset.range handleMax) handles n) :
    Lifetime k ({ s with handles := handles }.settle k n o') := by
  unfold IpcState.settle
  split
  case isTrue hfree =>
    simp only [setObj, update_idem]
    refine h.replace hhandle hoth nofun ?_ ((h.table.clear n).congr fun m => ?_)
    · simp only [hfree.2, true_and, true_iff]
      omega
    · by_cases hm : m = n <;> simp [hm]
  case isFalse hkeep =>
  refine h.replace hhandle hoth (fun o1 ho1 => ?_) ?_ (h.table.congr fun m => ?_)
  · cases ho1
    exact ⟨hcnt, rfl, fun m o1 hm ho1 hsame => hm (h.names m n o1 o ho1 ho (hsame.trans hname))⟩
  · simp only [reduceCtorEq, false_iff]
    refine fun hboth => hkeep ⟨?_, hboth.1⟩
    omega
  · by_cases hm : m = n <;> simp [hm, ho]

theorem close (hclose : s.close k i = some r) : Lifetime k r.2 := by
  unfold IpcState.close at hclose
  split at hclose
  · cases hclose
    exact h
  case h_2 n hn =>
  obtain ⟨o, ho, rfl⟩ := map_eq_some_iff.mp hclose
  have hhits := hits_drop (h.handle i n hn) hn
  refine h.settle ho (by rfl) (fun j m hj => ?_) (fun m hm => by simpa [hm] using hhits m) ?_
  · by_cases hji : j = i
    · simp [hji] at hj
    · exact h.handle j m ((update_of_ne hji _ _).symm.trans hj)
  have hself := hhits n
  have hcnt := (h.counted n o ho).1
  rw [if_pos rfl] at hself
  change o.refcount - 1 = _
  omega

theorem unlink (hunl : s.unlink k name = some r) : Lifetime k r.2 := by
  unfold IpcState.unlink at hunl
  iterate 2
    split at hunl
    · cases hunl
      exact h
  · obtain ⟨o, ho, rfl⟩ := map_eq_some_iff.mp hunl
    exact h.settle ho (by rfl) h.handle (fun _ _ => rfl) (h.counted _ o ho).1

/-- After an unlink, the name can be created again if and only if the object had no handle. -/
theorem fresh_iff {addr} (hfind : s.findByName k name = some n)
    (hunl : s.unlink k name = some (0, s')) (haddr : s'.obj addr = none)
    (hfree : (freeSlot handleMax s.handles).isSome) (excl : Bool) :
    (∃ r, s'.openName k name true excl (some addr) = some r ∧ r.2.obj addr ≠ none) ↔
      s.opens n = 0 := by
  have h' := h.unlink hunl
  obtain ⟨i, hi⟩ := isSome_iff_exists.mp hfree
  unfold IpcState.unlink at hunl
  split at hunl
  · cases hunl
  case isFalse hslash =>
  rw [hfind] at hunl
  obtain ⟨o, ho, heq⟩ := map_eq_some_iff.mp hunl
  have hs' : s.settle k n { o with unlinked := true } = s' := congrArg snd heq
  have hcnt := (h.counted n o ho).1
  obtain ⟨o1, ho1, hname⟩ := (h.found_iff name n).mp hfind
  cases ho.symm.trans ho1
  unfold IpcState.openName
  rw [if_neg hslash]
  by_cases hzero : o.refcount = 0
  · -- The object is gone, and its slot is free.
    rw [IpcState.settle, if_pos ⟨hzero, rfl⟩] at hs'
    have hgone : s'.findByName k name = none := by
      refine eq_none_iff_forall_ne_some.mpr fun m hm => ?_
      obtain ⟨o', ho', hname'⟩ := (h'.found_iff name m).mp hm
      rw [← hs'] at ho'
      have hm : m ≠ n := by
        rintro rfl
        simp [setObj] at ho'
      simp only [setObj, update_of_ne hm] at ho'
      exact hm (h.names m n o' o ho' ho (hname'.trans hname.symm))
    obtain ⟨j, hj⟩ := isSome_iff_exists.mp (h.table.freeSlot_clear (a := n) (by simp [ho]))
    have hj' : freeSlot k.slots s'.table = some j := hs' ▸ hj
    have hi' : freeSlot handleMax s'.handles = some i := hs' ▸ hi
    refine iff_of_true ⟨_, by rw [hgone]; simp only [hj']; rfl, ?_⟩ (by omega)
    simp [IpcState.allocHandle, setObj, hi']
  -- The object still has its name.
  rw [IpcState.settle, if_neg fun hboth => hzero hboth.1] at hs'
  have hobj : s'.obj n = some { o with unlinked := true } := hs' ▸ update_self _ _ _
  refine iff_of_false ?_ (by omega)
  rintro ⟨r, hopen, hr⟩
  rw [(h'.found_iff name n).mpr ⟨_, hobj, hname⟩] at hopen
  simp only [hobj, map_some, if_true] at hopen
  split at hopen <;> cases hopen <;> exact hr haddr

theorem step {c} (hcare : s.Careful k c) (hstep : s.step k c = some s') : Lifetime k s' := by
  cases c with
  | «open» name creat excl addr =>
    obtain ⟨haddr, r, hopen, rfl⟩ := ite_map_eq_some hstep
    exact h.openName hcare haddr hopen
  | close handle =>
    obtain ⟨r, hclose, rfl⟩ := map_eq_some_iff.mp hstep
    exact h.close hclose
  | unlink name =>
    obtain ⟨r, hunl, rfl⟩ := map_eq_some_iff.mp hstep
    exact h.unlink hunl

end

end Lifetime

/-- Objects live as long as they should, and a name that is unlinked can be created again if
and only if its object had no handle. -/
theorem ipc_lifetime {calls : List IpcCall} (hrun : GuardedRun (step k) (Careful k) start calls s) :
    Lifetime k s ∧ ∀ name n s' addr excl, s.findByName k name = some n →
      s.unlink k name = some (0, s') → s'.obj addr = none →
      (freeSlot handleMax s.handles).isSome →
      ((∃ r, s'.openName k name true excl (some addr) = some r ∧ r.2.obj addr ≠ none) ↔
        s.opens n = 0) := by
  have h := hrun.inv (Lifetime k) (fun _ _ _ h => h.step)
    ⟨by simp [start], by simp [start, opens, hits], by simp [start],
      ⟨by simp [start], by simp [start], by simp [start]⟩, by simp [start]⟩
  exact ⟨h, fun _ _ _ _ excl hfind hunlink haddr hfree =>
    h.fresh_iff hfind hunlink haddr hfree excl⟩

/-- A semaphore is opened twice, unlinked, and closed twice. -/
theorem ipc_lifetime_closedLast : ∃ s, GuardedRun (step semaphores) (Careful semaphores) start
    [.open [47, 97] true false (some 1), .open [47, 97] false false none, .unlink [47, 97],
      .close 0, .close 1] s ∧ s.obj 1 = none ∧ Lifetime semaphores s := by
  apply exists_and_of (by decide +kernel)
  intro s hrun _
  exact (ipc_lifetime hrun).1

/-- The name of a message queue that is unlinked while it is open cannot be created again, and
the 65th open counts although it gets no handle. -/
theorem lifetime_broken :
    (∃ s, run (step mqueues) start [.open [47] true false (some 1), .unlink [47]] = some s ∧
      (s.openName mqueues [47] true false (some 2)).map Prod.fst = some (-2)) ∧
    ∃ s, run (step semaphores) start (.open [47] true false (some 1) ::
        List.replicate 64 (.open [47] true false none)) = some s ∧
      (s.obj 1).map IpcObject.refcount = some 65 ∧ s.opens 1 = 64 := by
  decide +kernel

end IpcState

end Kurios.Ipc
