import Mathlib.Algebra.GroupWithZero.Nat

namespace Libnodecc

/-- Reduction of a natural number to a 64-bit `size_t`. -/
def sizeT (n : Nat) : Nat := n % 2^64

/-- The difference of two `size_t` values. -/
def subSizeT (a b : Nat) : Nat := sizeT (a + (2^64 - b))

theorem sizeT_le (n : Nat) : sizeT n ≤ n := Nat.mod_le n (2^64)

theorem sizeT_of_lt (n : Nat) (h : n < 2^64) : sizeT n = n := Nat.mod_eq_of_lt h

end Libnodecc
