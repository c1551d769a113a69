import Mathlib

/-!
Unsigned 64-bit arithmetic on naturals, and the alignment idioms of C.

A machine word is a natural below `2 ^ 64`; `u64` is what a store into an
unsigned 64-bit variable keeps. `x & ~m` on words is `x - (x & m)` on naturals,
so `alignDown` and `alignUp` below are the usual macros for every alignment
argument, power of two or not. For a power of two they round to a multiple,
which is what the `*_two_pow` lemmas state.
-/

namespace Kurios.Base

/-- Truncation to 64 bits. -/
def u64 (n : Nat) : Nat := n % 2 ^ 64

/-- `x++` and `x--` on an unsigned 32-bit variable. -/
def incr32 (n : Nat) : Nat := if n = 2 ^ 32 - 1 then 0 else n + 1
def decr32 (n : Nat) : Nat := if n = 0 then 2 ^ 32 - 1 else n - 1

/-- `x - y` on unsigned 32-bit and 16-bit variables. -/
def sub32 (x y : Nat) : Nat := if y ≤ x then x - y else 2 ^ 32 - (y - x)
def sub16 (x y : Nat) : Nat := if y ≤ x then x - y else 2 ^ 16 - (y - x)

/-- `x & ~(align - 1)`. -/
def alignDown (x align : Nat) : Nat := x - (x &&& (align - 1))

/-- `(x + (align - 1)) & ~(align - 1)`, with the addition wrapping. -/
def alignUp (x align : Nat) : Nat := alignDown (u64 (x + (align - 1))) align

/-- `(x & (align - 1)) == 0`. -/
def isAligned (x align : Nat) : Bool := x &&& (align - 1) == 0

theorem u64_lt (n : Nat) : u64 n < 2 ^ 64 := Nat.mod_lt _ (by decide)

theorem u64_of_lt {n} (h : n < 2 ^ 64) : u64 n = n := Nat.mod_eq_of_lt h

theorem incr32_of_lt {n} (h : n < 2 ^ 32 - 1) : incr32 n = n + 1 := if_neg h.ne

theorem decr32_succ (n : Nat) : decr32 (n + 1) = n := rfl

theorem alignDown_two_pow (x k : Nat) : alignDown x (2 ^ k) = x / 2 ^ k * 2 ^ k := by
  unfold alignDown
  rw [Nat.and_two_pow_sub_one_eq_mod]
  have := Nat.div_add_mod x (2 ^ k)
  rw [mul_comm] at this
  omega

theorem alignUp_two_pow (x k : Nat) : alignUp x (2 ^ k) = u64 (x + (2 ^ k - 1)) / 2 ^ k * 2 ^ k :=
  alignDown_two_pow _ k

theorem isAligned_two_pow (x k : Nat) : isAligned x (2 ^ k) = true ↔ 2 ^ k ∣ x := by
  simp only [isAligned, Nat.and_two_pow_sub_one_eq_mod, beq_iff_eq]
  exact Nat.dvd_iff_mod_eq_zero.symm

end Kurios.Base
