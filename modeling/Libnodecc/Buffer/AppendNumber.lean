import Libnodecc.Buffer.Value
import Libnodecc.Framework.Numeral
import Libnodecc.Util.Math
import Mathlib.Data.FinEnum

namespace Libnodecc.Buf

open Util

/-- The table `chars` of `append_number`. -/
def digitChar (d : Nat) : UInt8 := UInt8.ofNat (if d < 10 then 0x30 + d else 0x61 + (d - 10))

/-- The loop of `append_number`, entered with a divisor that is not zero. -/
def digitLoop (n base : Nat) : Nat → Nat → Bytes
  | 0, _ => []
  | fuel + 1, div =>
    digitChar (n / div % base) ::
      (if 0 < div / base then digitLoop n base fuel (div / base) else [])

/-- `mutable_buffer::append_number`. `none` is a division by zero, or a number of digits other
than the one there is room for. Without room and without data `_expand_size` gives a null
pointer, and nothing is written. -/
def appendNumber (p : Platform) (b : Buf) (n base : Nat) : Option Buf :=
  if 2 ≤ base ∧ base ≤ 36 then
    let length := digits p.build n base
    let div := ipowOn p.bits base ((length + (2^p.bits - 1)) % 2^p.bits)
    if length = 0 ∧ b = none then some b
    else if div = 0 then none
    else if (digitLoop n base 64 div).length = length then
      some (some (b.bytes ++ digitLoop n base 64 div))
    else none
  else some b

theorem digitLoop_eq (n base fuel k : Nat) (hb : 2 ≤ base) (hk : k < fuel) :
    digitLoop n base fuel (base^k) = (numeral base (k + 1) n).map digitChar := by
  induction k generalizing fuel with
  | zero =>
    obtain ⟨fuel, rfl⟩ : ∃ f, fuel = f + 1 := ⟨fuel - 1, by omega⟩
    have hdiv : 1 / base = 0 := Nat.div_eq_of_lt (by omega)
    simp [digitLoop, numeral, hdiv]
  | succ k ih =>
    obtain ⟨fuel, rfl⟩ : ∃ f, fuel = f + 1 := ⟨fuel - 1, by omega⟩
    have hpos : 0 < base^k := Nat.pow_pos (by omega)
    have hdiv : base^(k + 1) / base = base^k := by
      rw [pow_succ, Nat.mul_div_cancel _ (by omega)]
    rw [digitLoop, hdiv, if_pos hpos, ih fuel (by omega)]
    rfl

/-- A length that fits makes `append_number` write that many digits. -/
theorem appendNumber_eq (p : Platform) (b : Buf) (n base k : Nat) (hb : 2 ≤ base)
    (hb' : base ≤ 36) (hlen : digits p.build n base = k + 1) (hk : base^k < 2^p.bits) :
    b.appendNumber p n base =
      some (some (b.bytes ++ (numeral base (k + 1) n).map digitChar)) := by
  have hbits := p.bits_le
  have hle : 2^k ≤ base^k := Nat.pow_le_pow_left hb k
  have hlt : k < p.bits := (Nat.pow_lt_pow_iff_right (by decide)).mp (lt_of_le_of_lt hle hk)
  have hbig : k < 2^p.bits := lt_of_lt_of_le hlt (Nat.le_of_lt Nat.lt_two_pow_self)
  have hsub : (k + 1 + (2^p.bits - 1)) % 2^p.bits = k := by
    have hsum : k + 1 + (2^p.bits - 1) = k + 2^p.bits := by omega
    rw [hsum, Nat.add_mod_right, Nat.mod_eq_of_lt hbig]
  have hdiv : ipowOn p.bits base ((k + 1 + (2^p.bits - 1)) % 2^p.bits) = base^k := by
    rw [hsub, ipowOn_eq p.bits base k (by omega) (by omega), Nat.mod_eq_of_lt hk]
  have hpos : base^k ≠ 0 := (Nat.pow_pos (by omega)).ne'
  have hloop := digitLoop_eq n base 64 k hb (by omega)
  unfold appendNumber
  rw [if_pos ⟨hb, hb'⟩]
  simp only [hlen, hdiv, hpos, hloop, List.length_map, numeral_length, if_true, if_false,
    Nat.succ_ne_zero, false_and]

def hexDigits (n : Nat) : List Nat := numeral 16 (Nat.log 2 n / 4 + 1) n

theorem appendNumber_hex (p : Platform) (b : Buf) (n : Nat) (h : 0 < n) (hn : n < 2^p.bits) :
    b.appendNumber p n 16 = some (some (b.bytes ++ (hexDigits n).map digitChar)) := by
  have hn64 : n < 2^64 := lt_of_lt_of_le hn (Nat.pow_le_pow_right (by decide) p.bits_le)
  apply appendNumber_eq p b n 16 _ (by decide) (by decide) (digits_hex p.build n h hn64)
  have hlog : 2^Nat.log 2 n ≤ n := Nat.pow_log_le_self 2 h.ne'
  calc 16^(Nat.log 2 n / 4) = 2^(4 * (Nat.log 2 n / 4)) := by
        rw [pow_mul]
        norm_num
    _ ≤ 2^Nat.log 2 n := Nat.pow_le_pow_right (by decide) (by omega)
    _ < 2^p.bits := by omega

/-- The digits of zero are none, which is only harmless where nothing could be written. -/
theorem appendNumber_zero_hex (p : Platform) (b : Buf) :
    b.appendNumber p 0 16 = if b = none then some none else none := by
  have hdiv : ipowOn p.bits 16 ((0 + (2^p.bits - 1)) % 2^p.bits) = 0 := by
    rcases p.width with h | ⟨h, -⟩
    · rw [h]
      decide +kernel
    · rw [h]
      decide +kernel
  unfold appendNumber
  rw [digits_zero_hex]
  simp only [hdiv]
  cases b with
  | none => simp
  | some bs => simp

def decimal (bs : Bytes) : Option Nat :=
  if bs ≠ [] ∧ ∀ ch ∈ bs, 0x30 ≤ ch ∧ ch ≤ 0x39 then
    some (readDigits 10 0 (bs.map fun ch => ch.toNat - 0x30))
  else none

theorem decimal_digits (ds : List Nat) (hne : ds ≠ []) (hds : ∀ d ∈ ds, d < 10) :
    decimal (ds.map digitChar) = some (readDigits 10 0 ds) := by
  have hchar : ∀ d < 10, (0x30 ≤ digitChar d ∧ digitChar d ≤ 0x39) ∧
      (digitChar d).toNat - 0x30 = d := by decide
  have hread : (ds.map digitChar).map (fun ch => ch.toNat - 0x30) = ds := by
    rw [List.map_map]
    conv_rhs => rw [← List.map_id ds]
    exact List.map_congr_left fun d hd => (hchar d (hds d hd)).2
  unfold decimal
  rw [if_pos, hread]
  refine ⟨by simpa using hne, ?_⟩
  intro ch hch
  obtain ⟨d, hd, rfl⟩ := List.mem_map.mp hch
  exact (hchar d (hds d hd)).1

theorem appendNumber_decimal (p : Platform) (b : Buf) (n : Nat) :
    ∃ ds, b.appendNumber p n 10 = some (some (b.bytes ++ ds)) ∧
      (n < 2^64 → (decimal ds = some n ↔ n < 10^10 ∨ p.build.sizeTMax = 2^64 - 1)) := by
  obtain ⟨hpos, hfit⟩ := p.power_lt n
  obtain ⟨k, hk⟩ : ∃ k, digits p.build n 10 = k + 1 := ⟨digits p.build n 10 - 1, by omega⟩
  rw [hk, Nat.add_sub_cancel] at hfit
  refine ⟨_, appendNumber_eq p b n 10 k (by decide) (by decide) hk hfit, fun hn => ?_⟩
  obtain ⟨-, -, henough⟩ := digits_decimal p.build n hn
  rw [decimal_digits _ (by simp [numeral]) (numeral_lt 10 _ n (by decide)),
    readDigits_numeral, Nat.zero_mul, Nat.zero_add, ← hk, ← henough, Option.some.injEq]
  exact Nat.mod_eq_iff_lt (Nat.pow_pos (by decide)).ne'

end Libnodecc.Buf
