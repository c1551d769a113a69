import Kurios.Base.Loop

/-!
The reader-writer lock (`kernel/sync/rwlock.c`).

The critical sections of its spinlock are the steps: an attempt to take the lock, which a thread
that waits repeats, or an unlock. The count of readers has 32 bits with a sign; as long as it does
not overflow, the lock excludes as it should (`excludes`).
-/

namespace Kurios.Sync

open Base List

structure RwLock where
  readers : BitVec 32
  writer : Bool

namespace RwLock

variable (l : RwLock)

/-- `rwlock_try_read_lock`, and one round of `rwlock_read_lock`. -/
def readLock : Option RwLock :=
  if l.writer then none else some { l with readers := l.readers + 1 }

/-- `rwlock_try_write_lock`. -/
def tryWriteLock : Option RwLock :=
  if !l.writer ∧ l.readers = 0 then some { l with writer := true } else none

/-- One round of `rwlock_write_lock`. -/
def writeLock : Option RwLock :=
  if l.writer ∨ 0 < l.readers.toInt then none else some { l with writer := true }

/-- `rwlock_read_unlock`. -/
def readUnlock : RwLock :=
  if 0 < l.readers.toInt then { l with readers := l.readers - 1 } else l

/-- `rwlock_write_unlock`. -/
def writeUnlock : RwLock := { l with writer := false }

end RwLock

/-- The lock, and the threads that hold it. -/
structure Holders (T : Type) where
  lock : RwLock
  reading : List T
  writing : List T

inductive Section (T : Type) where
  | readLock (t : T)
  | writeLock (t : T)
  | tryWriteLock (t : T)
  | readUnlock (t : T)
  | writeUnlock (t : T)

namespace Holders

variable {T : Type}

/-- After `rwlock_init`. -/
def start : Holders T := ⟨⟨0, false⟩, [], []⟩

section

variable (s : Holders T)

def read (t : T) (lock : RwLock) : Holders T := { s with lock, reading := t :: s.reading }

def write (t : T) (lock : RwLock) : Holders T := { s with lock, writing := t :: s.writing }

/-- The count has room for another reader. -/
def Room : Section T → Prop
  | .readLock _ => s.reading.length < 2 ^ 31 - 1
  | _ => True

instance (c) : Decidable (s.Room c) := by
  cases c <;> unfold Room <;> infer_instance

/-- One thread holds the lock for writing or none does, as the flag says, and if one does then none
holds it for reading. -/
structure Exclusive : Prop where
  readers : s.lock.readers.toInt = s.reading.length
  writer : s.writing.length = s.lock.writer.toNat
  apart : s.lock.writer = true → s.reading = []

end

/-- A critical section of a thread. A thread unlocks what it holds. -/
def step [DecidableEq T] (s : Holders T) : Section T → Option (Holders T)
  | .readLock t => some (s.lock.readLock.elim s (s.read t))
  | .writeLock t => some (s.lock.writeLock.elim s (s.write t))
  | .tryWriteLock t => some (s.lock.tryWriteLock.elim s (s.write t))
  | .readUnlock t => if t ∈ s.reading then
      some { s with lock := s.lock.readUnlock, reading := s.reading.erase t } else none
  | .writeUnlock t => if t ∈ s.writing then
      some { s with lock := s.lock.writeUnlock, writing := s.writing.erase t } else none

namespace Exclusive

variable {s s' : Holders T} (h : s.Exclusive)
include h

theorem readers_eq_zero_iff : s.lock.readers = 0 ↔ s.reading = [] := by
  rw [← BitVec.toInt_inj, h.readers]
  simp

/-- A writer that got the lock found it free. -/
theorem write (t : T) (hfree : s.lock.writer = false) (hnone : s.reading = []) :
    (s.write t { s.lock with writer := true }).Exclusive := by
  refine ⟨h.readers, ?_, fun _ => hnone⟩
  have hwriter := h.writer
  rw [hfree] at hwriter
  exact congrArg Nat.succ hwriter

theorem step [DecidableEq T] {c} (hroom : s.Room c) (hstep : s.step c = some s') :
    s'.Exclusive := by
  have hcount := h.readers
  cases c with
  | readLock t =>
    cases hstep
    unfold RwLock.readLock
    split
    case isTrue => exact h
    case isFalse hfree =>
    have hroom' : s.reading.length < 2 ^ 31 - 1 := hroom
    refine ⟨?_, h.writer, fun hw => absurd hw hfree⟩
    change (s.lock.readers + 1).toInt = (t :: s.reading).length
    rw [BitVec.toInt_add, hcount, length_cons]
    exact Int.bmod_eq_of_le (by simp; omega) (by simp; omega)
  | writeLock t =>
    cases hstep
    unfold RwLock.writeLock
    split
    case isTrue => exact h
    case isFalse hfree =>
    rw [not_or, Bool.not_eq_true, hcount] at hfree
    exact h.write t hfree.1 (length_eq_zero_iff.mp (by omega))
  | tryWriteLock t =>
    cases hstep
    unfold RwLock.tryWriteLock
    split
    case isTrue hfree =>
      exact h.write t (by simpa using hfree.1) (h.readers_eq_zero_iff.mp hfree.2)
    case isFalse => exact h
  | readUnlock t =>
    obtain ⟨ht, rfl⟩ := ite_eq_some hstep
    have hpos := length_pos_of_mem ht
    have hlt := s.lock.readers.toInt_lt
    rw [RwLock.readUnlock, if_pos (by omega)]
    refine ⟨?_, h.writer, fun hw => ?_⟩
    · change (s.lock.readers - 1).toInt = (s.reading.erase t).length
      rw [BitVec.toInt_sub, hcount, length_erase_of_mem ht]
      exact (Int.bmod_eq_of_le (by simp; omega) (by simp; omega)).trans (by simp; omega)
    · rw [h.apart hw] at ht
      cases ht
  | writeUnlock t =>
    obtain ⟨ht, rfl⟩ := ite_eq_some hstep
    refine ⟨hcount, ?_, nofun⟩
    rw [length_erase_of_mem ht, h.writer]
    exact Nat.sub_eq_zero_of_le s.lock.writer.toNat_le

end Exclusive

/-- **Exclusion.** In every interleaving in which the count of readers does not overflow, the lock
excludes, the count is right, and an attempt only fails because of a holder. -/
theorem excludes [DecidableEq T] {sections : List (Section T)} {s : Holders T}
    (hrun : GuardedRun step Room start sections s) :
    s.Exclusive ∧ (s.lock.readLock = none → s.writing ≠ []) ∧
      (s.lock.tryWriteLock = none → s.writing ≠ [] ∨ s.reading ≠ []) := by
  have h : s.Exclusive := hrun.inv Exclusive (fun _ _ _ h => h.step) ⟨rfl, rfl, fun _ => rfl⟩
  have hwriter : s.lock.writer = true → s.writing ≠ [] := by
    intro hw hnil
    have hlen := h.writer
    rw [hw, hnil] at hlen
    cases hlen
  refine ⟨h, fun hfail => ?_, fun hfail => ?_⟩
  · exact hwriter (by simpa [RwLock.readLock] using hfail)
  · have hbusy : s.lock.writer = false → s.reading ≠ [] := by
      rw [Ne, ← h.readers_eq_zero_iff]
      simpa [RwLock.tryWriteLock] using hfail
    cases hw : s.lock.writer with
    | true => exact .inl (hwriter hw)
    | false => exact .inr (hbusy hw)

/-- A reader, a writer that fails, and a writer. -/
theorem excludes_two : ∃ s : Holders Nat, GuardedRun step Room start
    [.readLock 1, .tryWriteLock 2, .readUnlock 1, .writeLock 2] s ∧ s.writing = [2] ∧
      s.Exclusive := by
  apply exists_and_of (by decide +kernel)
  intro s hrun _
  exact (excludes hrun).1

/-- Every reader is counted, modulo `2^32`. -/
theorem run_readLock [DecidableEq T] (threads : List T) (s : Holders T)
    (hw : s.lock.writer = false) : run step s (threads.map .readLock) =
      some { s with
        lock := ⟨s.lock.readers + BitVec.ofNat 32 threads.length, false⟩
        reading := threads.reverse ++ s.reading } := by
  induction threads generalizing s with
  | nil => simp [run, ← hw]
  | cons t threads ih =>
    have hfirst : s.step (.readLock t) = some (s.read t ⟨s.lock.readers + 1, false⟩) := by
      simp [step, RwLock.readLock, hw]
    rw [map_cons, run_cons.mpr ⟨_, hfirst, ih _ rfl⟩, length_cons, reverse_cons, append_assoc,
      Nat.add_comm, BitVec.ofNat_add, ← BitVec.add_assoc]
    rfl

/-- With `2^31` read locks of one thread a writer gets the lock. -/
theorem readers_overflow : ∃ s : Holders Nat,
    run step start ((replicate (2 ^ 31) 0).map .readLock) = some s ∧ s.reading.length = 2 ^ 31 ∧
      s.lock.readers.toInt = -2 ^ 31 ∧ s.lock.writeLock ≠ none := by
  refine ⟨_, run_readLock _ start rfl, ?_⟩
  simp only [length_replicate, length_append, length_reverse]
  exact ⟨rfl, by decide, by decide⟩

end Holders

end Kurios.Sync
