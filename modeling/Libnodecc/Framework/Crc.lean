import Libnodecc.Framework.Numeral
import Mathlib.Data.BitVec

namespace Libnodecc.Crc

section
variable {w : Nat} (poly : BitVec w)

/-- One step of the reflected remainder: the bit shifted out decides if the polynomial, mirrored,
is taken off. -/
def shift (x : BitVec w) : BitVec w :=
  if x.getLsbD 0 then (x >>> 1) ^^^ poly.reverse else x >>> 1

def bit (crc : BitVec w) (b : Bool) : BitVec w :=
  if crc.getLsbD 0 ^^ b then (crc >>> 1) ^^^ poly.reverse else crc >>> 1

def bits (b : UInt8) : List Bool := (List.range 8).map b.toBitVec.getLsbD

def bitwise (crc : BitVec w) (bs : List UInt8) : BitVec w :=
  (bs.flatMap bits).foldl (bit poly) crc

def shifts : Nat → BitVec w → BitVec w
  | 0, x => x
  | n + 1, x => shifts n (shift poly x)

def byte (crc : BitVec w) (b : UInt8) : BitVec w :=
  shifts poly 8 (crc ^^^ b.toBitVec.setWidth w)

def update (crc : BitVec w) (bs : List UInt8) : BitVec w := bs.foldl (byte poly) crc

def word : List UInt8 → BitVec w
  | [] => 0#w
  | b :: bs => b.toBitVec.setWidth w ^^^ (word bs) <<< 8

@[simp] theorem update_nil (crc : BitVec w) : update poly crc [] = crc := rfl

@[simp] theorem update_cons (crc : BitVec w) (b : UInt8) (bs : List UInt8) :
    update poly crc (b :: bs) = update poly (byte poly crc b) bs := rfl

theorem update_append (crc : BitVec w) (bs cs : List UInt8) :
    update poly crc (bs ++ cs) = update poly (update poly crc bs) cs := List.foldl_append

theorem shifts_add (m n : Nat) (x : BitVec w) :
    shifts poly (m + n) x = shifts poly n (shifts poly m x) := by
  induction m generalizing x with
  | zero => rw [Nat.zero_add, shifts]
  | succ m ih => rw [Nat.succ_add, shifts, shifts, ih]

theorem shift_xor (x y : BitVec w) : shift poly (x ^^^ y) = shift poly x ^^^ shift poly y := by
  have hcancel (a b p : BitVec w) : a ^^^ p ^^^ (b ^^^ p) = a ^^^ b := by
    rw [BitVec.xor_assoc, BitVec.xor_comm b p, ← BitVec.xor_assoc p p b, BitVec.xor_self,
      BitVec.zero_xor]
  simp only [shift, BitVec.getLsbD_xor, BitVec.ushiftRight_xor_distrib]
  cases x.getLsbD 0 <;> cases y.getLsbD 0
  · rfl
  · exact BitVec.xor_assoc _ _ _
  · simp only [Bool.true_xor, Bool.not_false, if_true, Bool.false_eq_true, if_false]
    rw [BitVec.xor_assoc, BitVec.xor_assoc, BitVec.xor_comm (y >>> 1)]
  · exact (hcancel _ _ _).symm

theorem shifts_xor (n : Nat) (x y : BitVec w) :
    shifts poly n (x ^^^ y) = shifts poly n x ^^^ shifts poly n y := by
  induction n generalizing x y with
  | zero => rfl
  | succ n ih => rw [shifts, shift_xor, ih, shifts, shifts]

theorem shifts_zero (n : Nat) : shifts poly n 0#w = 0#w := by
  have h := shifts_xor poly n 0#w 0#w
  rw [BitVec.xor_self, BitVec.xor_self] at h
  exact h

/-- Zeros that are shifted out leave nothing but the shift. -/
theorem shifts_shiftLeft (n : Nat) (x : BitVec w) (h : x <<< n >>> n = x) :
    shifts poly n (x <<< n) = x := by
  have hlow : ∀ k ≤ n, shifts poly k (x <<< n) = (x <<< n) >>> k := by
    intro k
    induction k with
    | zero => intro _; rw [shifts, BitVec.ushiftRight_zero]
    | succ k ih =>
      intro hk
      have hbit : ((x <<< n) >>> k).getLsbD 0 = false := by
        have hlt : k + 0 < n := by omega
        rw [BitVec.getLsbD_ushiftRight, BitVec.getLsbD_shiftLeft, decide_eq_true hlt]
        simp
      rw [shifts_add poly k 1, ih (by omega), shifts, shifts, shift, hbit, BitVec.shiftRight_add]
      rfl
  rw [hlow n le_rfl, h]

/-- The lowest byte and the rest are divided on their own. -/
theorem shifts_split (n : Nat) (x : BitVec w) :
    shifts poly (8 + n) x = shifts poly (8 + n) (x &&& 255#w) ^^^ shifts poly n (x >>> 8) := by
  have hbits (i : Nat) : (255#w).getLsbD i = (decide (i < w) && decide (i < 8)) := by
    rw [BitVec.getLsbD_ofNat, show (255 : Nat) = 2^8 - 1 from rfl, Nat.testBit_two_pow_sub_one]
  have hx : x = (x &&& 255#w) ^^^ (x >>> 8) <<< 8 := by
    apply BitVec.eq_of_getLsbD_eq
    intro i hi
    simp only [BitVec.getLsbD_xor, BitVec.getLsbD_and, BitVec.getLsbD_shiftLeft,
      BitVec.getLsbD_ushiftRight, hbits, hi]
    by_cases h8 : i < 8
    · simp [h8]
    · have hsub : 8 + (i - 8) = i := by omega
      simp [h8, hsub]
  have hback : (x >>> 8) <<< 8 >>> 8 = x >>> 8 := by
    apply BitVec.eq_of_getLsbD_eq
    intro i hi
    simp only [BitVec.getLsbD_shiftLeft, BitVec.getLsbD_ushiftRight]
    by_cases h8 : 8 + i < w
    · simp [h8]
    · simp [h8, BitVec.getLsbD_of_ge x (8 + i) (by omega)]
  conv_lhs => rw [hx]
  rw [shifts_xor, shifts_add poly 8 n ((x >>> 8) <<< 8), shifts_shiftLeft poly 8 _ hback]

theorem word_getLsbD (bs : List UInt8) (i : Nat) (hi : 8 * bs.length ≤ i) :
    (word bs : BitVec w).getLsbD i = false := by
  induction bs generalizing i with
  | nil => simp [word]
  | cons b bs ih =>
    rw [List.length_cons] at hi
    have hb : b.toBitVec.getLsbD i = false := BitVec.getLsbD_of_ge _ _ (by omega)
    rw [word, BitVec.getLsbD_xor, BitVec.getLsbD_setWidth, BitVec.getLsbD_shiftLeft, hb,
      ih (i - 8) (by omega)]
    simp

theorem word_readDigits (bs : List UInt8) :
    (word bs : BitVec w) = BitVec.ofNat w (readDigits 256 0 (bs.reverse.map UInt8.toNat)) := by
  induction bs with
  | nil => rfl
  | cons b bs ih =>
    have hread : readDigits 256 0 ((b :: bs).reverse.map UInt8.toNat) =
        2^8 * readDigits 256 0 (bs.reverse.map UInt8.toNat) + b.toNat := by
      simp only [readDigits, List.reverse_cons, List.map_append, List.map_cons, List.map_nil,
        List.foldl_append, List.foldl_cons, List.foldl_nil]
      omega
    rw [word, ih, hread]
    apply BitVec.eq_of_getLsbD_eq
    intro i hi
    simp only [BitVec.getLsbD_xor, BitVec.getLsbD_setWidth, BitVec.getLsbD_shiftLeft,
      BitVec.getLsbD_ofNat, Nat.testBit_two_pow_mul_add _ b.toNat_lt, hi]
    by_cases h8 : i < 8
    · have hbit : b.toBitVec.getLsbD i = b.toNat.testBit i := rfl
      simp [h8, ← hbit]
    · have hlt : i - 8 < w := by omega
      simp [h8, hlt, BitVec.getLsbD_of_ge b.toBitVec i (by omega)]

/-- Bytes may come in as one word. -/
theorem shifts_word (crc : BitVec w) (bs : List UInt8) (h : 8 * bs.length ≤ w) :
    shifts poly (8 * bs.length) (crc ^^^ word bs) = update poly crc bs := by
  induction bs generalizing crc with
  | nil => exact BitVec.xor_zero
  | cons b bs ih =>
    rw [List.length_cons] at h
    have hback : (word bs : BitVec w) <<< 8 >>> 8 = word bs := by
      apply BitVec.eq_of_getLsbD_eq
      intro i hi
      simp only [BitVec.getLsbD_ushiftRight, BitVec.getLsbD_shiftLeft]
      by_cases h8 : 8 + i < w
      · simp [h8]
      · simp [h8, word_getLsbD bs i (by omega)]
    rw [List.length_cons, Nat.mul_succ, Nat.add_comm, shifts_add, word, ← BitVec.xor_assoc,
      shifts_xor, shifts_shiftLeft poly 8 _ hback]
    exact ih _ (by omega)

/-- Bits may come in all at once, before the steps they decide. -/
theorem shifts_bits (n : Nat) (crc m : BitVec w) (hm : ∀ i, n ≤ i → m.getLsbD i = false) :
    shifts poly n (crc ^^^ m) = ((List.range n).map m.getLsbD).foldl (bit poly) crc := by
  induction n generalizing crc m with
  | zero =>
    have hzero : m = 0#w := by
      apply BitVec.eq_of_getLsbD_eq
      intro i _
      rw [hm i (Nat.zero_le i), BitVec.getLsbD_zero]
    rw [hzero, BitVec.xor_zero]
    rfl
  | succ n ih =>
    have hstep : shift poly (crc ^^^ m) = bit poly crc (m.getLsbD 0) ^^^ (m >>> 1) := by
      simp only [shift, bit, BitVec.getLsbD_xor, BitVec.ushiftRight_xor_distrib]
      split_ifs
      · rw [BitVec.xor_assoc, BitVec.xor_comm (m >>> 1), ← BitVec.xor_assoc]
      · rfl
    have hrest : (List.range n).map (fun i => m.getLsbD (i + 1)) =
        (List.range n).map (m >>> 1).getLsbD := by
      apply List.map_congr_left
      intro i _
      rw [BitVec.getLsbD_ushiftRight, Nat.add_comm]
    rw [shifts, hstep, List.range_succ_eq_map, List.map_cons, List.map_map, List.foldl_cons]
    change _ = ((List.range n).map fun i => m.getLsbD (i + 1)).foldl (bit poly) _
    rw [hrest]
    apply ih
    intro i hi
    rw [BitVec.getLsbD_ushiftRight, hm _ (by omega)]

theorem update_bitwise (crc : BitVec w) (bs : List UInt8) (hw : 8 ≤ w) :
    update poly crc bs = bitwise poly crc bs := by
  induction bs generalizing crc with
  | nil => rfl
  | cons b bs ih =>
    have hbyte : byte poly crc b = (bits b).foldl (bit poly) crc := by
      have hbits : (List.range 8).map (b.toBitVec.setWidth w).getLsbD = bits b := by
        apply List.map_congr_left
        intro i hi
        have hlt : i < w := by
          have h8 := List.mem_range.mp hi
          omega
        simp [hlt]
      rw [← hbits, byte]
      apply shifts_bits
      intro i hi
      rw [BitVec.getLsbD_setWidth, BitVec.getLsbD_of_ge b.toBitVec i hi, Bool.and_false]
    rw [update_cons, hbyte, ih, bitwise, bitwise, List.flatMap_cons, List.foldl_append]

theorem shift_eq_zero (hpoly : poly.getLsbD 0 = true) (x : BitVec w)
    (h : shift poly x = 0#w) : x = 0#w := by
  have hw : 0 < w := BitVec.lt_of_getLsbD hpoly
  have hrest (y : BitVec w) (hy : y >>> 1 = 0#w) (h0 : y.getLsbD 0 = false) :
      y = 0#w := by
    apply BitVec.eq_of_getLsbD_eq
    intro i _
    cases i with
    | zero => rw [h0, BitVec.getLsbD_zero]
    | succ i =>
      have hbit := congrArg (fun z => BitVec.getLsbD z i) hy
      simp only [BitVec.getLsbD_ushiftRight] at hbit
      rw [Nat.add_comm i 1, hbit, BitVec.getLsbD_zero, BitVec.getLsbD_zero]
  unfold shift at h
  split_ifs at h with h0
  · -- the highest bit is that of the mirrored polynomial
    have hbit := congrArg (fun z => BitVec.getLsbD z (w - 1)) h
    have hlt : ¬ 1 + (w - 1) < w := by omega
    have htop : poly.reverse.getLsbD (w - 1) = true := by
      rw [BitVec.getLsbD_reverse, BitVec.getMsbD_eq_getLsbD]
      simp [hpoly, hw]
    simp only [BitVec.getLsbD_xor, BitVec.getLsbD_ushiftRight, htop,
      BitVec.getLsbD_of_ge x _ (Nat.le_of_not_lt hlt), BitVec.getLsbD_zero] at hbit
    cases hbit
  · exact hrest x h (by simpa using h0)

theorem shifts_eq_zero (hpoly : poly.getLsbD 0 = true) (n : Nat) (x : BitVec w)
    (h : shifts poly n x = 0#w) : x = 0#w := by
  induction n generalizing x with
  | zero => exact h
  | succ n ih => exact shift_eq_zero poly hpoly x (ih _ h)

theorem byte_injective (hpoly : poly.getLsbD 0 = true) (b : UInt8) :
    Function.Injective fun crc => byte poly crc b := by
  intro x y h
  have hxor : x ^^^ b.toBitVec.setWidth w ^^^ (y ^^^ b.toBitVec.setWidth w) = 0#w := by
    apply shifts_eq_zero poly hpoly 8
    rw [shifts_xor]
    change byte poly x b ^^^ byte poly y b = 0#w
    rw [show byte poly x b = byte poly y b from h, BitVec.xor_self]
  have hsame : x ^^^ b.toBitVec.setWidth w = y ^^^ b.toBitVec.setWidth w :=
    BitVec.xor_eq_zero_iff.mp hxor
  exact (BitVec.xor_left_inj _).mp hsame

theorem update_injective (hpoly : poly.getLsbD 0 = true) (bs : List UInt8) :
    Function.Injective fun crc => update poly crc bs := by
  induction bs with
  | nil => exact fun _ _ h => h
  | cons b bs ih => exact fun x y h => byte_injective poly hpoly b (ih h)

end

end Libnodecc.Crc
