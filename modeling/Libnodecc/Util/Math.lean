import Libnodecc.Util.SizeT
import Mathlib.Data.Nat.Log
import Mathlib.Tactic.Ring

namespace Libnodecc.Util

/-- What the preprocessor and the mathematical library make of `digits`: the value of the macro
`SIZE_T_MAX` (0 where it is not defined) and `log(n) / log(base)` rounded towards zero. -/
structure Build where
  sizeTMax : Nat
  logDigits : Nat → Nat → Nat
  ladder : sizeTMax ≤ 2^32 - 1 ∨ sizeTMax = 2^64 - 1

/-- A build without `SIZE_T_MAX`. -/
def glibc : Build := ⟨0, fun n base => Nat.log base n, .inl (by decide)⟩

/-- A build and the `size_t` it is for, of 32 or 64 bits. -/
structure Platform where
  bits : Nat
  build : Build
  width : bits = 64 ∨ bits = 32 ∧ build.sizeTMax ≤ 2^32 - 1

abbrev Build.on64 (build : Build) : Platform := ⟨64, build, .inl rfl⟩

instance : Coe Build Platform := ⟨Build.on64⟩

/-- `__builtin_clzl` of a number that is not zero. -/
def clz (n : Nat) : Nat := 63 - Nat.log 2 n

/-- `digits2` of an `unsigned long`. -/
def digits2 (n : Nat) : Nat := if n ≠ 0 then 64 - clz n else 0

/-- The comparisons with the powers of ten up to `10^k`. -/
def ladder : Nat → Nat → Nat
  | 0, _ => 1
  | k + 1, n => if 10^(k + 1) ≤ n then k + 2 else ladder k n

def digitsPow2 (n base : Nat) : Nat := (digits2 n + digits2 base - 2) / (digits2 base - 1)

def digits (build : Build) (n base : Nat) : Nat :=
  match base with
  | 0 | 1 => 0
  | 2 => digits2 n
  | 10 => if build.sizeTMax ≤ 2^32 - 1 then ladder 9 n else ladder 19 n
  | base => if base &&& (base - 1) = 0 then digitsPow2 n base else build.logDigits n base

/-- The loop of `ipow` for a `size_t` of `bits` bits; an exponent of 64 bits is used up after 64
rounds. -/
def ipowLoop (bits : Nat) : Nat → Nat → Nat → Nat → Nat
  | 0, result, _, _ => result
  | fuel + 1, result, base, exp =>
    if exp = 0 then result
    else ipowLoop bits fuel (if exp % 2 = 1 then result * base % 2^bits else result)
      (base * base % 2^bits) (exp / 2)

def ipowOn (bits base exp : Nat) : Nat := ipowLoop bits 64 1 base exp

/-- `ipow` on 64 bits. -/
def ipow (base exp : Nat) : Nat := ipowOn 64 base exp

theorem digits2_eq (n : Nat) (h : 0 < n) (hn : n < 2^64) : digits2 n = Nat.log 2 n + 1 := by
  have hlog : Nat.log 2 n < 64 := Nat.log_lt_of_lt_pow (Nat.pos_iff_ne_zero.mp h) hn
  have hne : n ≠ 0 := by omega
  simp only [digits2, clz, if_pos hne]
  omega

theorem ladder_pos (k n : Nat) : 0 < ladder k n ∧ ladder k n ≤ k + 1 := by
  induction k with
  | zero => simp [ladder]
  | succ k ih =>
    unfold ladder
    split_ifs
    · omega
    · omega

theorem ladder_lt (k n : Nat) (hn : n < 10^(k + 1)) : n < 10^(ladder k n) := by
  induction k with
  | zero => exact hn
  | succ k ih =>
    unfold ladder
    split_ifs with h
    · exact hn
    · exact ih (by omega)

/-- Without `SIZE_T_MAX`, numbers from `10^10` on get too few decimal digits. -/
theorem digits_decimal (build : Build) (n : Nat) (hn : n < 2^64) :
    0 < digits build n 10 ∧ digits build n 10 ≤ 20 ∧
      (n < 10^(digits build n 10) ↔ n < 10^10 ∨ build.sizeTMax = 2^64 - 1) := by
  have hladder := build.ladder
  simp only [digits]
  split_ifs with hsmall
  · obtain ⟨h1, h2⟩ := ladder_pos 9 n
    refine ⟨h1, by omega, ?_⟩
    constructor
    · intro h
      have hle : 10^(ladder 9 n) ≤ 10^10 := Nat.pow_le_pow_right (by decide) h2
      exact .inl (lt_of_lt_of_le h hle)
    · rintro (h | h)
      · exact ladder_lt 9 n h
      · omega
  · obtain ⟨h1, h2⟩ := ladder_pos 19 n
    refine ⟨h1, by omega, iff_of_true (ladder_lt 19 n (by omega)) ?_⟩
    exact .inr (hladder.resolve_left hsmall)

theorem lt_pow_hex (n : Nat) : n < 16^(Nat.log 2 n / 4 + 1) := by
  have hlt : n < 2^(Nat.log 2 n + 1) := Nat.lt_pow_succ_log_self (by decide) n
  have hle : 2^(Nat.log 2 n + 1) ≤ 2^(4 * (Nat.log 2 n / 4 + 1)) :=
    Nat.pow_le_pow_right (by decide) (by omega)
  have hsq : (2 : Nat)^(4 * (Nat.log 2 n / 4 + 1)) = 16^(Nat.log 2 n / 4 + 1) := by
    rw [pow_mul]
    norm_num
  omega

theorem digits_hex (build : Build) (n : Nat) (h : 0 < n) (hn : n < 2^64) :
    digits build n 16 = Nat.log 2 n / 4 + 1 := by
  have h16 : digits2 16 = 5 := by decide +kernel
  have hpow : (16 : Nat) &&& (16 - 1) = 0 := by decide
  have hd : digits build n 16 = (Nat.log 2 n + 4) / 4 := by
    simp only [digits, hpow, if_pos, digitsPow2, h16, digits2_eq n h hn]
    congr 1
  rw [hd]
  omega

theorem digits_zero_hex (build : Build) : digits build 0 16 = 0 := by
  have hpow : (16 : Nat) &&& (16 - 1) = 0 := by decide
  have h16 : digits2 16 = 5 := by decide +kernel
  have h0 : digits2 0 = 0 := rfl
  simp only [digits, hpow, if_pos, digitsPow2, h0, h16]

/-- Square and multiply, modulo the size of a `size_t`. -/
theorem ipowLoop_eq (bits fuel result base exp : Nat) (h : exp < 2^fuel) (hr : result < 2^bits) :
    ipowLoop bits fuel result base exp = result * base^exp % 2^bits := by
  have hpos : 0 < 2^bits := Nat.pow_pos (by decide)
  induction fuel generalizing result base exp with
  | zero =>
    obtain rfl : exp = 0 := by simpa using h
    rw [ipowLoop, pow_zero, Nat.mul_one, Nat.mod_eq_of_lt hr]
  | succ fuel ih =>
    unfold ipowLoop
    by_cases hz : exp = 0
    · rw [if_pos hz, hz, pow_zero, Nat.mul_one, Nat.mod_eq_of_lt hr]
    · rw [if_neg hz]
      have hhalf : exp / 2 < 2^fuel := by
        rw [pow_succ] at h
        omega
      by_cases hodd : exp % 2 = 1
      · rw [if_pos hodd, ih _ _ _ hhalf (Nat.mod_lt _ hpos)]
        have hexp : exp = 2 * (exp / 2) + 1 := by omega
        conv_rhs => rw [hexp, pow_succ, pow_mul, pow_two]
        rw [Nat.mul_mod, Nat.mod_mod, Nat.pow_mod, Nat.mod_mod, ← Nat.pow_mod, ← Nat.mul_mod]
        ring_nf
      · rw [if_neg hodd, ih _ _ _ hhalf hr]
        have hexp : exp = 2 * (exp / 2) := by omega
        conv_rhs => rw [hexp, pow_mul, pow_two]
        rw [Nat.mul_mod, Nat.pow_mod, Nat.mod_mod, ← Nat.pow_mod, ← Nat.mul_mod]

theorem ipowOn_eq (bits base exp : Nat) (hbits : 0 < bits) (h : exp < 2^64) :
    ipowOn bits base exp = base^exp % 2^bits := by
  rw [ipowOn, ipowLoop_eq bits 64 1 base exp h (Nat.one_lt_two_pow hbits.ne'), Nat.one_mul]

theorem ipow_eq (base exp : Nat) (h : exp < 2^64) : ipow base exp = base^exp % 2^64 :=
  ipowOn_eq 64 base exp (by decide) h

theorem Platform.bits_le (p : Platform) : p.bits ≤ 64 := by
  rcases p.width with h | ⟨h, -⟩ <;> omega

/-- The powers of ten that decimal digits need are numbers of a `size_t`. -/
theorem Platform.power_lt (p : Platform) (n : Nat) :
    0 < digits p.build n 10 ∧ 10^(digits p.build n 10 - 1) < 2^p.bits := by
  have hsmall : 0 < ladder 9 n ∧ 10^(ladder 9 n - 1) < 2^32 := by
    obtain ⟨hpos, hle⟩ := ladder_pos 9 n
    refine ⟨hpos, ?_⟩
    calc 10^(ladder 9 n - 1) ≤ 10^9 := Nat.pow_le_pow_right (by decide) (by omega)
      _ < 2^32 := by decide
  have hlarge : 0 < ladder 19 n ∧ 10^(ladder 19 n - 1) < 2^64 := by
    obtain ⟨hpos, hle⟩ := ladder_pos 19 n
    refine ⟨hpos, ?_⟩
    calc 10^(ladder 19 n - 1) ≤ 10^19 := Nat.pow_le_pow_right (by decide) (by omega)
      _ < 2^64 := by decide
  rw [digits]
  rcases p.width with h | ⟨h, hmax⟩
  · rw [h]
    split_ifs
    · exact ⟨hsmall.1, lt_trans hsmall.2 (by decide)⟩
    · exact hlarge
  · rw [h, if_pos hmax]
    exact hsmall

end Libnodecc.Util
