import Libnodecc.Util.Math
import Mathlib.Analysis.SpecialFunctions.Log.Base

namespace Libnodecc.Util

def Build.ExactLogs (build : Build) : Prop :=
  ∀ n base : Nat, build.logDigits n base = ⌊Real.log n / Real.log base⌋₊

theorem Build.ExactLogs.eq_log {build : Build} (h : build.ExactLogs) (n base : Nat) :
    build.logDigits n base = Nat.log base n := by
  rw [h n base]
  exact Real.natFloor_logb_natCast base n

theorem glibc_exactLogs : glibc.ExactLogs := by
  intro n base
  exact (Real.natFloor_logb_natCast base n).symm

/-- Where `digits` counts the digits: in base 10 unless the ladder is too short, and in a base that
is a power of two unless the number is zero. -/
def Sized (build : Build) (n base : Nat) : Prop :=
  base = 10 ∧ (n < 10^10 ∨ build.sizeTMax = 2^64 - 1) ∨ base ∈ [2, 4, 8, 16, 32] ∧ n ≠ 0

instance (build : Build) (n base : Nat) : Decidable (Sized build n base) :=
  inferInstanceAs (Decidable (_ ∨ _))

theorem ladder_eq (k n : Nat) (hn : n < 10^(k + 1)) : ladder k n = Nat.log 10 n + 1 := by
  induction k with
  | zero =>
    have hlt : n < 10 := hn
    rw [ladder, Nat.log_of_lt hlt]
  | succ k ih =>
    unfold ladder
    split_ifs with h
    · rw [Nat.log_eq_of_pow_le_of_lt_pow h hn]
    · exact ih (by omega)

theorem digits_ten (build : Build) (n : Nat) (hn : n < 2^64) :
    digits build n 10 = Nat.log 10 n + 1 ↔ n < 10^10 ∨ build.sizeTMax = 2^64 - 1 := by
  obtain ⟨hpos, -, henough⟩ := digits_decimal build n hn
  rw [← henough]
  constructor
  · intro h
    rw [h]
    exact Nat.lt_pow_succ_log_self (by decide) n
  · intro h
    have hladder := build.ladder
    rw [henough] at h
    simp only [digits]
    split_ifs with hsmall
    · apply ladder_eq 9 n
      omega
    · apply ladder_eq 19 n
      omega

/-- As many digits in base `2^j` as groups of `j` binary digits, the last one possibly shorter. -/
theorem digitsPow2_eq (n base j : Nat) (hj : 0 < j) (hbase : base = 2^j)
    (hcount : digits2 base = j + 1)
    (h : n ≠ 0) (hn : n < 2^64) : digitsPow2 n base = Nat.log base n + 1 := by
  have hlog : Nat.log base n = Nat.log 2 n / j := by
    apply Nat.log_eq_of_pow_le_of_lt_pow
    · rw [hbase, ← pow_mul]
      apply le_trans (Nat.pow_le_pow_right (by decide) _) (Nat.pow_log_le_self 2 h)
      exact Nat.mul_div_le _ _
    · rw [hbase, ← pow_mul]
      have hlt : n < 2^(Nat.log 2 n + 1) := Nat.lt_pow_succ_log_self (by decide) n
      apply lt_of_lt_of_le hlt
      apply Nat.pow_le_pow_right (by decide)
      exact Nat.lt_mul_div_succ _ hj
  have hsum : Nat.log 2 n + 1 + (j + 1) - 2 = Nat.log 2 n + j := by omega
  rw [digitsPow2, hcount, digits2_eq n (Nat.pos_of_ne_zero h) hn, hlog, hsum, Nat.add_sub_cancel,
    Nat.add_div_right _ hj]

theorem digitsPow2_zero (base : Nat) (hbase : 2 < digits2 base) : digitsPow2 0 base = 0 := by
  have hzero : digits2 0 = 0 := rfl
  rw [digitsPow2, hzero]
  exact Nat.div_eq_of_lt (by omega)

theorem digits_of_log (build : Build) (n base : Nat) (hexact : build.ExactLogs) (h2 : 2 ≤ base)
    (h10 : base ≠ 10) (hbase : base ≠ 2) (hpow : base &&& (base - 1) ≠ 0) :
    digits build n base = Nat.log base n := by
  rw [← hexact.eq_log n base]
  unfold digits
  split
  · omega
  · omega
  · exact absurd rfl hbase
  · exact absurd rfl h10
  · exact if_neg hpow

theorem digits_of_pow2 (build : Build) (n base : Nat) (h2 : 2 < base) (h10 : base ≠ 10)
    (hpow : base &&& (base - 1) = 0) : digits build n base = digitsPow2 n base := by
  unfold digits
  split
  · omega
  · omega
  · omega
  · exact absurd rfl h10
  · exact if_pos hpow

theorem base_pow2 (base : Nat) (h2 : 2 ≤ base) (h36 : base ≤ 36) :
    base ∈ [2, 4, 8, 16, 32] ↔ base &&& (base - 1) = 0 := by
  revert base
  decide

theorem digits2_base (base : Nat) (h : base ∈ [2, 4, 8, 16, 32]) :
    ∃ j, 0 < j ∧ base = 2^j ∧ digits2 base = j + 1 := by
  have hcount (j : Nat) (hj : j < 6) : digits2 (2^j) = j + 1 := by
    revert j
    decide +kernel
  simp only [List.mem_cons, List.not_mem_nil, or_false] at h
  rcases h with rfl | rfl | rfl | rfl | rfl
  · exact ⟨1, by decide, rfl, hcount 1 (by decide)⟩
  · exact ⟨2, by decide, rfl, hcount 2 (by decide)⟩
  · exact ⟨3, by decide, rfl, hcount 3 (by decide)⟩
  · exact ⟨4, by decide, rfl, hcount 4 (by decide)⟩
  · exact ⟨5, by decide, rfl, hcount 5 (by decide)⟩

theorem digits_pow2 (build : Build) (n base : Nat) (hn : n < 2^64) (h : base ∈ [2, 4, 8, 16, 32]) :
    digits build n base = if n = 0 then 0 else Nat.log base n + 1 := by
  obtain ⟨j, hj, hpow, hcount⟩ := digits2_base base h
  by_cases h2 : base = 2
  · subst h2
    change digits2 n = _
    split_ifs with hz
    · rw [hz]
      rfl
    · exact digits2_eq n (Nat.pos_of_ne_zero hz) hn
  · have hbase : 2 < base ∧ base ≠ 10 ∧ base ≤ 36 := by
      simp only [List.mem_cons, List.not_mem_nil, or_false] at h
      omega
    have hmask := (base_pow2 base hbase.1.le hbase.2.2).mp h
    rw [digits_of_pow2 build n base hbase.1 hbase.2.1 hmask]
    split_ifs with hz
    · have hlarge : 1 < j := by
        by_contra hle
        obtain rfl : j = 1 := by omega
        exact h2 hpow
      rw [hz]
      exact digitsPow2_zero base (by omega)
    · exact digitsPow2_eq n base j hj hpow hcount hz hn

/-- When `digits` gives the number of digits. -/
theorem digits_iff (build : Build) (n base : Nat) (hexact : build.ExactLogs) (hn : n < 2^64)
    (h2 : 2 ≤ base) (h36 : base ≤ 36) :
    digits build n base = Nat.log base n + 1 ↔ Sized build n base := by
  by_cases h10 : base = 10
  · subst h10
    have hnot : 10 ∉ [2, 4, 8, 16, 32] := by decide
    rw [digits_ten build n hn]
    simp only [Sized, hnot, false_and, or_false, true_and]
  · by_cases hpow : base ∈ [2, 4, 8, 16, 32]
    · rw [digits_pow2 build n base hn hpow]
      simp only [Sized, h10, hpow, false_and, false_or, true_and]
      by_cases hz : n = 0
      · rw [if_pos hz]
        exact iff_of_false (by omega) (fun h => h hz)
      · rw [if_neg hz]
        exact iff_of_true rfl hz
    · -- the integral part of the logarithm is one less than the number of digits
      have hmask : base &&& (base - 1) ≠ 0 := fun h => hpow ((base_pow2 base h2 h36).mpr h)
      have hne : base ≠ 2 := fun h => hpow (by simp [h])
      rw [digits_of_log build n base hexact h2 h10 hne hmask]
      simp only [Sized, h10, hpow, false_and, or_false]
      exact iff_of_false (by omega) id

end Libnodecc.Util
