import Mathlib.Data.Nat.Basic

/-!
# Machine words as natural numbers

Unsigned 64-bit values are natural numbers below `2^64`; arithmetic that can wrap
goes through `wrap64` and `sub64`. `toInt` is the conversion of an unsigned value
to a 32-bit `int`.
-/

namespace Gxh

/-- The number of `uint64_t` values. -/
abbrev size64 : Nat := 18446744073709551616

/-- Reduction of a sum to `uint64_t`. -/
def wrap64 (n : Nat) : Nat := n % size64

/-- Subtraction of two `uint64_t` values. -/
def sub64 (a b : Nat) : Nat := wrap64 (a + (size64 - b))

/-- `~0ull`. -/
def max64 : Nat := size64 - 1

theorem wrap64_of_lt {n : Nat} (h : n < size64) : wrap64 n = n := Nat.mod_eq_of_lt h

theorem sub64_of_le {a b : Nat} (ha : a < size64) (h : b ≤ a) : sub64 a b = a - b := by
  unfold sub64 wrap64 size64 at *
  omega

/-- A subtraction below zero wraps around. -/
theorem sub64_of_lt {a b : Nat} (hb : b < size64) (h : a < b) :
    sub64 a b = a + (size64 - b) := by
  unfold sub64 wrap64 size64 at *
  omega

/-- `--n` on a counter: one less, and `~0` below zero. -/
def pred64 (n : Nat) : Nat := if n = 0 then max64 else n - 1

theorem pred64_of_pos {n : Nat} (h : 0 < n) : pred64 n = n - 1 := if_neg (by omega)

/-- Conversion to `int`: the low 32 bits, read as a signed number. -/
def toInt (n : Nat) : Int :=
  if n % 4294967296 < 2147483648 then (n % 4294967296 : Nat)
  else (n % 4294967296 : Nat) - (4294967296 : Int)

theorem toInt_le (n : Nat) : toInt n ≤ n := by
  unfold toInt
  split <;> omega

theorem toInt_of_lt {n : Nat} (h : n < 2147483648) : toInt n = n := by
  unfold toInt
  split <;> omega

end Gxh
