import Mathlib.Data.BitVec
import Mathlib.Data.Nat.Log
import Mathlib.Data.Nat.Size

namespace Libnodecc

theorem size_eq_log (n : Nat) (h : n ≠ 0) : Nat.size n = Nat.log 2 n + 1 := by
  apply le_antisymm
  · exact Nat.size_le.mpr (Nat.lt_pow_succ_log_self (by decide) n)
  · exact Nat.lt_size.mpr (Nat.pow_log_le_self 2 h)

section
variable {w : Nat}

/-- Below the highest bit of a number with `k` bits, at least `s` bits are set. -/
structure Smeared (k s : Nat) (x : BitVec w) : Prop where
  above : ∀ i, k ≤ i → x.getLsbD i = false
  below : ∀ i, i < k → k ≤ i + s → x.getLsbD i = true

theorem smeared_size (x : BitVec w) : Smeared (Nat.size x.toNat) 1 x := by
  constructor
  · intro i hi
    apply Nat.testBit_lt_two_pow
    exact Nat.size_le.mp hi
  · intro i hi hle
    apply Nat.testBit_of_two_pow_le_and_two_pow_add_one_gt
    · exact Nat.lt_size.mp hi
    · exact Nat.size_le.mp hle

theorem Smeared.step {k s : Nat} {x : BitVec w} (h : Smeared k s x) :
    Smeared k (2 * s) (x ||| x >>> s) := by
  constructor
  · intro i hi
    rw [BitVec.getLsbD_or, BitVec.getLsbD_ushiftRight, h.above i hi, h.above (s + i) (by omega)]
    rfl
  · intro i hi hle
    rw [BitVec.getLsbD_or, BitVec.getLsbD_ushiftRight]
    by_cases hs : k ≤ i + s
    · rw [h.below i hi hs, Bool.true_or]
    · rw [h.below (s + i) (by omega) (by omega), Bool.or_true]

theorem Smeared.eq {k s : Nat} {x : BitVec w} (h : Smeared k s x) (hs : k ≤ s) :
    x = BitVec.ofNat w (2^k - 1) := by
  apply BitVec.eq_of_getLsbD_eq
  intro i hi
  rw [BitVec.getLsbD_ofNat, Nat.testBit_two_pow_sub_one, decide_eq_true hi, Bool.true_and]
  by_cases hik : i < k
  · rw [h.below i hik (by omega), decide_eq_true hik]
  · rw [h.above i (by omega), decide_eq_false hik]

end

end Libnodecc
