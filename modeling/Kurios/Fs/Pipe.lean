import Mathlib

/-!
Pipes: `pipe_read` and `pipe_write` of `kernel/fs/pipe.c`.

A pipe is a ring of bytes with two cursors and a counter. `Pipe.contents` are the bytes in it,
the oldest first: a read takes bytes from the front (`readLoop_spec`), a write puts bytes at the
end (`writeLoop_spec`), and `pipe_fifo` is what follows for every sequence of calls.
-/

namespace Kurios.Fs

open Function List

/-- `PIPE_BUF_SIZE`. -/
def pipeBufSize : Nat := 4096

/-- `pipe_t`. -/
structure Pipe where
  buffer : Nat → UInt8
  readPos : Nat
  writePos : Nat
  count : Nat
  readers : Nat
  writers : Nat

namespace Pipe

/-- The pipe that `pipe_create` makes. -/
def new : Pipe := ⟨fun _ => 0, 0, 0, 0, 1, 1⟩

/-- The byte at the read cursor is taken. -/
def pop (p : Pipe) : Pipe :=
  { p with readPos := (p.readPos + 1) % pipeBufSize, count := p.count - 1 }

/-- A byte is put at the write cursor. -/
def push (p : Pipe) (b : UInt8) : Pipe :=
  { p with
    buffer := update p.buffer p.writePos b
    writePos := (p.writePos + 1) % pipeBufSize
    count := p.count + 1 }

/-- The loop of `pipe_read`. -/
def readLoop : Nat → Pipe → List UInt8 × Pipe
  | 0, p => ([], p)
  | size + 1, p =>
    if p.count > 0 then
      let (bytes, p') := readLoop size p.pop
      (p.buffer p.readPos :: bytes, p')
    else ([], p)

/-- `pipe_read`: the result, the bytes it stores, and the pipe. -/
def read (p : Pipe) (size : Nat) : Int × List UInt8 × Pipe :=
  if p.count = 0 ∧ p.writers = 0 then (0, [], p)
  else if p.count = 0 then (-11, [], p)
  else
    let (bytes, p) := readLoop size p
    (bytes.length, bytes, p)

/-- The loop of `pipe_write`, with the number of bytes written. -/
def writeLoop : List UInt8 → Pipe → Nat × Pipe
  | [], p => (0, p)
  | b :: bs, p =>
    if p.count < pipeBufSize then
      let (n, p) := writeLoop bs (p.push b)
      (n + 1, p)
    else (0, p)

/-- `pipe_write`. -/
def write (p : Pipe) (bytes : List UInt8) : Int × Pipe :=
  if p.readers = 0 then (-32, p)
  else if p.count ≥ pipeBufSize then (-11, p)
  else
    let (n, p) := writeLoop bytes p
    (n, p)

/-! ### The ring -/

/-- The bytes in the pipe. -/
def contents (p : Pipe) : List UInt8 :=
  (List.range p.count).map fun i => p.buffer ((p.readPos + i) % pipeBufSize)

/-- The cursors are as far apart as the counter says, and both ends are open. -/
structure Valid (p : Pipe) : Prop where
  readPos : p.readPos < pipeBufSize
  writePos : p.writePos = (p.readPos + p.count) % pipeBufSize
  count : p.count ≤ pipeBufSize
  ends : p.readers ≠ 0 ∧ p.writers ≠ 0

variable {p : Pipe}

section

variable (h : p.Valid)
include h

theorem contents_pop (hcnt : p.count > 0) :
    p.contents = p.buffer p.readPos :: p.pop.contents ∧ p.pop.Valid := by
  have hsucc : p.count = p.count - 1 + 1 := by omega
  constructor
  · unfold contents pop
    rw [hsucc, range_succ_eq_map, map_cons, map_map, Nat.add_zero,
      Nat.mod_eq_of_lt h.readPos, Nat.add_sub_cancel]
    refine congrArg _ (map_congr_left fun i _ => congrArg p.buffer ?_)
    simp only [Nat.mod_add_mod]
    congr 1
    omega
  refine ⟨Nat.mod_lt _ (by decide), ?_, ?_, h.ends⟩
  · simp only [pop, Nat.mod_add_mod, h.writePos]
    congr 1
    omega
  · exact le_trans (Nat.sub_le _ _) h.count

theorem contents_push (hcnt : p.count < pipeBufSize) (b : UInt8) :
    (p.push b).contents = p.contents ++ [b] ∧ (p.push b).Valid := by
  have hpos := h.readPos
  constructor
  · unfold contents push
    dsimp only
    rw [range_succ, map_append, map_singleton, ← h.writePos, update_self]
    refine congrArg (· ++ [b]) (map_congr_left fun i hi => update_of_ne ?_ _ _)
    -- the places before the write cursor are less than a whole round away from it
    have hi := mem_range.mp hi
    rw [h.writePos]
    unfold pipeBufSize at *
    omega
  · refine ⟨hpos, ?_, hcnt, h.ends⟩
    simp [push, h.writePos, add_assoc]

theorem readLoop_spec (size : Nat) :
    p.contents = (readLoop size p).1 ++ (readLoop size p).2.contents ∧
      (readLoop size p).2.Valid := by
  induction size generalizing p with
  | zero => exact ⟨rfl, h⟩
  | succ size ih =>
    rw [readLoop]
    split
    case isFalse => exact ⟨rfl, h⟩
    case isTrue hcnt =>
    obtain ⟨hpop, hval⟩ := contents_pop h hcnt
    obtain ⟨hrest, hvalid'⟩ := ih hval
    exact ⟨by rw [hpop, hrest]; rfl, hvalid'⟩

/-- Bytes that are not written had no place. -/
theorem writeLoop_spec (bytes : List UInt8) :
    (writeLoop bytes p).2.contents = p.contents ++ bytes.take (writeLoop bytes p).1 ∧
      (writeLoop bytes p).2.Valid ∧
      ((writeLoop bytes p).1 < bytes.length → (writeLoop bytes p).2.count = pipeBufSize) := by
  induction bytes generalizing p with
  | nil => exact ⟨by simp [writeLoop], h, fun hlt => absurd hlt (Nat.not_lt_zero _)⟩
  | cons b bs ih =>
    rw [writeLoop]
    split
    case isFalse hfull =>
      exact ⟨by simp, h, fun _ => le_antisymm h.count (not_lt.mp hfull)⟩
    case isTrue hcnt =>
    obtain ⟨hpush, hval⟩ := contents_push h hcnt b
    obtain ⟨hrest, hvalid', hfull⟩ := ih hval
    refine ⟨?_, hvalid', fun hlt => hfull (Nat.lt_of_succ_lt_succ hlt)⟩
    rw [hrest, hpush, append_assoc]
    rfl

theorem read_spec (size : Nat) :
    p.contents = (p.read size).2.1 ++ (p.read size).2.2.contents ∧ (p.read size).2.2.Valid := by
  unfold read
  split
  · exact ⟨rfl, h⟩
  split
  · exact ⟨rfl, h⟩
  · exact readLoop_spec h size

theorem write_spec (bytes : List UInt8) :
    (p.write bytes).2.contents = p.contents ++ bytes.take (p.write bytes).1.toNat ∧
      (p.write bytes).2.Valid ∧
      ((p.write bytes).1.toNat < bytes.length → (p.write bytes).2.count = pipeBufSize) := by
  unfold write
  rw [if_neg h.ends.1]
  split
  case isTrue hfull => exact ⟨by simp, h, fun _ => le_antisymm h.count hfull⟩
  case isFalse => exact writeLoop_spec h bytes

end

end Pipe

/-! ### Histories -/

inductive PipeCall where
  | read (size : Nat)
  | write (bytes : List UInt8)

/-- A pipe, and all bytes that writes accepted and reads returned. -/
structure PipeHistory where
  pipe : Pipe
  accepted : List UInt8
  returned : List UInt8

namespace PipeHistory

def start : PipeHistory := ⟨.new, [], []⟩

/-- One call. A write accepts as many bytes of the request as a positive result says. -/
def step (h : PipeHistory) : PipeCall → PipeHistory
  | .read size =>
    { h with
      pipe := (h.pipe.read size).2.2
      returned := h.returned ++ (h.pipe.read size).2.1 }
  | .write bytes =>
    { h with
      pipe := (h.pipe.write bytes).2
      accepted := h.accepted ++ bytes.take (h.pipe.write bytes).1.toNat }

/-- What was accepted and not returned is in the pipe. -/
structure Fifo (h : PipeHistory) : Prop where
  valid : h.pipe.Valid
  accepted : h.accepted = h.returned ++ h.pipe.contents

theorem Fifo.step {h : PipeHistory} (hfifo : h.Fifo) (c : PipeCall) : (h.step c).Fifo := by
  cases c with
  | read size =>
    obtain ⟨hcont, hval⟩ := Pipe.read_spec hfifo.valid size
    refine ⟨hval, hfifo.accepted.trans ?_⟩
    rw [hcont, ← append_assoc]
    rfl
  | write bytes =>
    obtain ⟨hcont, hval, -⟩ := Pipe.write_spec hfifo.valid bytes
    refine ⟨hval, ?_⟩
    simp [PipeHistory.step, hcont, hfifo.accepted]

theorem fifo_start : start.Fifo := ⟨⟨by decide, rfl, by decide, by decide⟩, rfl⟩

/-- **Pipes are queues.** After every sequence of calls, the bytes returned are the first of those
accepted, the others are in the pipe, and a write that is cut short fills the pipe. -/
theorem pipe_fifo (calls : List PipeCall) :
    ∃ rest, (calls.foldl step start).accepted = (calls.foldl step start).returned ++ rest ∧
      rest.length = (calls.foldl step start).pipe.count ∧ rest.length ≤ pipeBufSize ∧
      ∀ bytes, ((calls.foldl step start).pipe.write bytes).1.toNat < bytes.length →
        ((calls.foldl step start).pipe.write bytes).2.count = pipeBufSize := by
  have hfifo : (calls.foldl step start).Fifo :=
    List.foldlRecOn calls step fifo_start fun _ h c _ => h.step c
  have hlength : (calls.foldl step start).pipe.contents.length =
      (calls.foldl step start).pipe.count := by simp [Pipe.contents]
  refine ⟨_, hfifo.accepted, hlength, ?_, fun bytes => ?_⟩
  · rw [hlength]
    exact hfifo.valid.count
  · exact (Pipe.write_spec hfifo.valid bytes).2.2

end PipeHistory

end Kurios.Fs
