import Mathlib

/-!
Byte buffers with numbers in them.

A buffer is a function from offsets to bytes. `load` and `store` read and write a
little-endian number of `n` bytes, and `copy` is `memcpy` into the buffer. Each has a
lemma for what it does inside its range and one that nothing changes outside. `storeWords`
puts a list of 64-bit words at an offset and `loadWords` reads a number of them; what was stored
is read back, as far as it is asked for (`loadWords_storeWords`).
-/

namespace Kurios.Base

open Function

abbrev Buffer := Nat → UInt8

/-- The little-endian number in the `n` bytes at `off`. -/
def load (buf : Buffer) (off : Nat) : Nat → Nat
  | 0 => 0
  | n + 1 => (buf off).toNat + 256 * load buf (off + 1) n

/-- The buffer with the number `x` in the `n` bytes at `off`. -/
def store (buf : Buffer) (off : Nat) : Nat → Nat → Buffer
  | 0, _ => buf
  | n + 1, x => update (store buf (off + 1) n (x / 256)) off (UInt8.ofNat x)

/-- The buffer with `n` bytes of `src` at `off`. -/
def copy (buf : Buffer) (off n : Nat) (src : Buffer) : Buffer :=
  fun i => if off ≤ i ∧ i < off + n then src (i - off) else buf i

variable {buf buf' src : Buffer} {off off' n m x i : Nat}

theorem load_congr (h : ∀ i, off ≤ i → i < off + n → buf' i = buf i) :
    load buf' off n = load buf off n := by
  induction n generalizing off with
  | zero => rfl
  | succ n ih =>
    rw [load, load, h off (le_refl off) (by omega)]
    rw [ih fun i hlo hhi => h i (by omega) (by omega)]

theorem load_zero (off n : Nat) : load (fun _ => 0) off n = 0 := by
  induction n generalizing off with
  | zero => rfl
  | succ n ih =>
    rw [load, ih]
    rfl

theorem store_of_outside (h : i < off ∨ off + n ≤ i) : store buf off n x i = buf i := by
  induction n generalizing off x with
  | zero => rfl
  | succ n ih =>
    have hne : i ≠ off := by omega
    rw [store, update_of_ne hne]
    exact ih (by omega)

/-- What was stored is read back. -/
theorem load_store_self (buf : Buffer) (off n x : Nat) :
    load (store buf off n x) off n = x % 256 ^ n := by
  induction n generalizing off x with
  | zero => exact (Nat.mod_one x).symm
  | succ n ih =>
    have hrest : load (store buf off (n + 1) x) (off + 1) n =
        load (store buf (off + 1) n (x / 256)) (off + 1) n := by
      refine load_congr fun i hlo _ => ?_
      exact update_of_ne (by omega) _ _
    have hbyte : (store buf off (n + 1) x off).toNat = x % 256 := by
      rw [store, update_self]
      exact UInt8.toNat_ofNat
    rw [load, hrest, ih, hbyte, Nat.pow_succ, mul_comm (256 ^ n), Nat.mod_mul]

theorem load_store_of_lt (h : x < 256 ^ n) : load (store buf off n x) off n = x := by
  rw [load_store_self, Nat.mod_eq_of_lt h]

/-- Numbers beside the one that is stored stay. -/
theorem load_store_of_disjoint (h : off + n ≤ off' ∨ off' + m ≤ off) :
    load (store buf off' m x) off n = load buf off n :=
  load_congr fun _ hlo hhi => store_of_outside (by omega)

theorem copy_of_outside (h : i < off ∨ off + n ≤ i) : copy buf off n src i = buf i :=
  if_neg (by omega)

theorem copy_add (h : i < n) : copy buf off n src (off + i) = src i := by
  unfold copy
  rw [if_pos ⟨Nat.le_add_right off i, by omega⟩, Nat.add_sub_cancel_left]

theorem load_copy_of_disjoint (h : off + n ≤ off' ∨ off' + m ≤ off) :
    load (copy buf off' m src) off n = load buf off n :=
  load_congr fun _ hlo hhi => copy_of_outside (by omega)

/-! ### Words -/

abbrev Word := BitVec 64

/-- The word at `off`. -/
def loadWord (buf : Buffer) (off : Nat) : Word := BitVec.ofNat 64 (load buf off 8)

/-- The buffer with the word `w` at `off`. -/
def storeWord (buf : Buffer) (off : Nat) (w : Word) : Buffer := store buf off 8 w.toNat

/-- The `n` words from `off` on. -/
def loadWords (buf : Buffer) (off : Nat) : Nat → List Word
  | 0 => []
  | n + 1 => loadWord buf off :: loadWords buf (off + 8) n

/-- The buffer with the words `ws` from `off` on. -/
def storeWords (buf : Buffer) (off : Nat) : List Word → Buffer
  | [] => buf
  | w :: ws => storeWord (storeWords buf (off + 8) ws) off w

variable {w : Word} {ws : List Word}

theorem loadWord_storeWord (buf : Buffer) (off : Nat) (w : Word) :
    loadWord (storeWord buf off w) off = w := by
  unfold loadWord storeWord
  rw [load_store_of_lt w.isLt, BitVec.ofNat_toNat, BitVec.setWidth_eq]

theorem storeWord_of_outside (h : i < off ∨ off + 8 ≤ i) : storeWord buf off w i = buf i :=
  store_of_outside h

theorem storeWords_of_outside (h : i < off ∨ off + 8 * ws.length ≤ i) :
    storeWords buf off ws i = buf i := by
  induction ws generalizing off with
  | nil => rfl
  | cons w ws ih =>
    rw [List.length_cons] at h
    rw [storeWords, storeWord_of_outside (by omega)]
    exact ih (by omega)

theorem loadWords_congr (h : ∀ i, off ≤ i → i < off + 8 * n → buf' i = buf i) :
    loadWords buf' off n = loadWords buf off n := by
  induction n generalizing off with
  | zero => rfl
  | succ n ih =>
    have hfirst : loadWord buf' off = loadWord buf off := by
      rw [loadWord, loadWord, load_congr fun i hlo hhi => h i hlo (by omega)]
    have hrest : loadWords buf' (off + 8) n = loadWords buf (off + 8) n :=
      ih fun i hlo hhi => h i (by omega) (by omega)
    rw [loadWords, loadWords, hfirst, hrest]

theorem loadWords_getD (buf : Buffer) (off : Nat) (h : i < n) :
    (loadWords buf off n).getD i 0 = loadWord buf (off + 8 * i) := by
  induction n generalizing off i with
  | zero => omega
  | succ n ih =>
    cases i with
    | zero => rfl
    | succ i =>
      rw [loadWords, List.getD_cons_succ, ih (off + 8) (by omega)]
      exact congrArg (loadWord buf) (by omega)

/-- What was stored is read back. -/
theorem loadWords_storeWords (buf : Buffer) (off : Nat) (ws : List Word) (h : n ≤ ws.length) :
    loadWords (storeWords buf off ws) off n = ws.take n := by
  induction ws generalizing off n with
  | nil =>
    obtain rfl : n = 0 := Nat.le_zero.mp h
    rfl
  | cons w ws ih =>
    cases n with
    | zero => rfl
    | succ n =>
      -- The first word lies below the others.
      have hrest : loadWords (storeWords buf off (w :: ws)) (off + 8) n =
          loadWords (storeWords buf (off + 8) ws) (off + 8) n :=
        loadWords_congr fun i hlo _ => storeWord_of_outside (.inr hlo)
      rw [loadWords, hrest, ih (off + 8) (Nat.le_of_succ_le_succ h), storeWords,
        loadWord_storeWord, List.take_succ_cons]

end Kurios.Base
