import Mathlib.Data.List.Induction
import Mathlib.Data.Nat.Digits.Defs
import Mathlib.Tactic.Ring

namespace Libnodecc

/-- The `k` lowest digits of `n` in base `b`, most significant first. -/
def numeral (b : Nat) : Nat → Nat → List Nat
  | 0, _ => []
  | k + 1, n => n / b^k % b :: numeral b k n

/-- Reading digits after a number `acc` that is already read. -/
def readDigits (b acc : Nat) (ds : List Nat) : Nat := ds.foldl (fun a d => a * b + d) acc

@[simp] theorem numeral_length (b k n : Nat) : (numeral b k n).length = k := by
  induction k with
  | zero => rfl
  | succ k ih => simp [numeral, ih]

theorem numeral_lt (b k n : Nat) (hb : 0 < b) : ∀ d ∈ numeral b k n, d < b := by
  induction k with
  | zero => simp [numeral]
  | succ k ih =>
    intro d hd
    rcases List.mem_cons.mp hd with rfl | hd
    · exact Nat.mod_lt _ hb
    · exact ih d hd

theorem readDigits_numeral (b k n acc : Nat) :
    readDigits b acc (numeral b k n) = acc * b^k + n % b^k := by
  induction k generalizing acc with
  | zero => simp [numeral, readDigits, Nat.mod_one]
  | succ k ih =>
    have h := ih (acc * b + n / b^k % b)
    have hmod : n % b^(k+1) = n % b^k + b^k * (n / b^k % b) := by
      rw [pow_succ, Nat.mod_mul]
    calc readDigits b acc (numeral b (k + 1) n)
        = (acc * b + n / b^k % b) * b^k + n % b^k := h
      _ = acc * b^(k+1) + n % b^(k+1) := by rw [hmod, pow_succ]; ring

theorem numeral_succ (b k n : Nat) : numeral b (k + 1) n = numeral b k (n / b) ++ [n % b] := by
  induction k with
  | zero => simp [numeral]
  | succ k ih =>
    rw [numeral, ih, numeral, List.cons_append, Nat.div_div_eq_div_mul, ← pow_succ']

theorem numeral_mod (b k n : Nat) : numeral b k (n % b^k) = numeral b k n := by
  induction k generalizing n with
  | zero => rfl
  | succ k ih =>
    have hhead : n % b^(k + 1) / b^k % b = n / b^k % b := by
      rw [pow_succ, Nat.mod_mul_right_div_self, Nat.mod_mod]
    have htail : n % b^(k + 1) % b^k = n % b^k :=
      Nat.mod_mod_of_dvd n (pow_dvd_pow b (Nat.le_succ k))
    rw [numeral, numeral, hhead, ← ih (n % b^(k + 1)), htail, ih]

/-- Without a leading zero, these are all digits. -/
theorem numeral_digits (b k n : Nat) (hb : 1 < b) (hlow : b^k ≤ n) (hhigh : n < b^(k + 1)) :
    numeral b (k + 1) n = (Nat.digits b n).reverse := by
  have hpos : 0 < n := lt_of_lt_of_le (Nat.pow_pos (by omega)) hlow
  induction k generalizing n with
  | zero =>
    rw [Nat.zero_add, pow_one] at hhigh
    rw [Nat.digits_of_lt b n hpos.ne' hhigh, numeral_succ, Nat.mod_eq_of_lt hhigh]
    rfl
  | succ k ih =>
    have hlow' : b^k ≤ n / b := by
      rw [Nat.le_div_iff_mul_le (by omega), ← pow_succ]
      exact hlow
    have hhigh' : n / b < b^(k + 1) := by
      rw [Nat.div_lt_iff_lt_mul (by omega), ← pow_succ]
      exact hhigh
    have hpos' : 0 < n / b := lt_of_lt_of_le (Nat.pow_pos (by omega)) hlow'
    rw [numeral_succ, ih (n / b) hlow' hhigh' hpos', Nat.digits_def' hb hpos, List.reverse_cons]

theorem readDigits_numeral_of_lt (b k n : Nat) (h : n < b^k) :
    readDigits b 0 (numeral b k n) = n := by
  rw [readDigits_numeral, Nat.mod_eq_of_lt h, Nat.zero_mul, Nat.zero_add]

theorem readDigits_append (b acc : Nat) (ds es : List Nat) :
    readDigits b acc (ds ++ es) = readDigits b (readDigits b acc ds) es :=
  List.foldl_append ..

theorem readDigits_acc (b acc : Nat) (ds : List Nat) :
    readDigits b acc ds = acc * b^ds.length + readDigits b 0 ds := by
  induction ds generalizing acc with
  | nil => simp [readDigits]
  | cons d ds ih =>
    have hacc := ih (acc * b + d)
    have hzero := ih (0 * b + d)
    simp only [readDigits, List.foldl_cons, List.length_cons] at hacc hzero ⊢
    rw [hacc, hzero, pow_succ]
    ring

theorem readDigits_concat (b acc : Nat) (ds : List Nat) (d : Nat) :
    readDigits b acc (ds ++ [d]) = readDigits b acc ds * b + d := by
  simp only [readDigits, List.foldl_append, List.foldl_cons, List.foldl_nil]

/-- Digits that are read make a numeral that is these digits again. -/
theorem numeral_readDigits (b : Nat) (ds : List Nat) (hb : 0 < b) (hds : ∀ d ∈ ds, d < b) :
    readDigits b 0 ds < b^ds.length ∧ numeral b ds.length (readDigits b 0 ds) = ds := by
  induction ds using List.reverseRecOn with
  | nil => simp [readDigits, numeral]
  | append_singleton ds d ih =>
    have hd : d < b := hds d (by simp)
    have hlast : ∀ e ∈ ds, e < b := fun e he => hds e (by simp [he])
    obtain ⟨hlt, hnum⟩ := ih hlast
    rw [List.length_append, List.length_singleton, readDigits_concat]
    constructor
    · calc readDigits b 0 ds * b + d < readDigits b 0 ds * b + b := by omega
        _ = (readDigits b 0 ds + 1) * b := by ring
        _ ≤ b^ds.length * b := Nat.mul_le_mul_right b hlt
        _ = b^(ds.length + 1) := (pow_succ b ds.length).symm
    · have hdiv : (readDigits b 0 ds * b + d) / b = readDigits b 0 ds := by
        rw [Nat.mul_comm, Nat.mul_add_div hb, Nat.div_eq_of_lt hd, Nat.add_zero]
      have hmod : (readDigits b 0 ds * b + d) % b = d := by
        rw [Nat.mul_comm, Nat.mul_add_mod, Nat.mod_eq_of_lt hd]
      rw [numeral_succ, hdiv, hmod, hnum]

theorem readDigits_three (a b c : Nat) : readDigits 256 0 [a, b, c] = a * 2^16 + b * 2^8 + c := by
  simp only [readDigits, List.foldl]
  omega

theorem readDigits_four (a b c d : Nat) :
    readDigits 256 0 [a, b, c, d] = a * 2^24 + b * 2^16 + c * 2^8 + d := by
  simp only [readDigits, List.foldl]
  omega

theorem and_mask (x k : Nat) : x &&& (2^k - 1) = x % 2^k := Nat.and_two_pow_sub_one_eq_mod x k

theorem and_mask_shiftRight (x k n m : Nat) (hm : m = (2^k - 1) <<< n) :
    (x &&& m) >>> n = x / 2^n % 2^k := by
  rw [hm, Nat.shiftRight_and_distrib, Nat.shiftLeft_shiftRight, and_mask, Nat.shiftRight_eq_div_pow]

theorem shiftLeft_or (x y n : Nat) (hy : y < 2^n) : x <<< n ||| y = x * 2^n + y := by
  rw [← Nat.shiftLeft_add_eq_or_of_lt hy, Nat.shiftLeft_eq]

theorem or_bytes (a b c d : Nat) (hb : b < 2^8) (hc : c < 2^8) (hd : d < 2^8) :
    a <<< 24 ||| b <<< 16 ||| c <<< 8 ||| d = readDigits 256 0 [a, b, c, d] := by
  have hlow := shiftLeft_or c d 8 hd
  have hmid := shiftLeft_or b (c * 2^8 + d) 16 (by omega)
  have hhigh := shiftLeft_or a (b * 2^16 + (c * 2^8 + d)) 24 (by omega)
  rw [Nat.or_assoc, Nat.or_assoc, hlow, hmid, hhigh, readDigits_four]
  omega

end Libnodecc
