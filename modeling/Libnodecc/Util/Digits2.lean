import Libnodecc.Framework.BitLength
import Libnodecc.Util.Math

namespace Libnodecc.Util.Digits2

/-- What `math.h` finds: a builtin that counts leading zeros, one that scans for the highest bit,
or neither. -/
inductive Variant where
  | clz
  | bsr
  | deBruijn
  deriving DecidableEq

/-- The width of `unsigned long`. -/
inductive Long where
  | bits32
  | bits64
  deriving DecidableEq

def Long.width : Long → Nat
  | bits32 => 32
  | bits64 => 64

/-- The overloads, for `unsigned int`, `unsigned long` and `unsigned long long`. -/
inductive Overload where
  | int
  | long
  | longLong
  deriving DecidableEq

def Overload.width (target : Long) : Overload → Nat
  | int => 32
  | long => target.width
  | longLong => 64

/-- `__builtin_clz` and its variants, of a number that is not zero. -/
def builtinClz (w n : Nat) : Nat := w - 1 - Nat.log 2 n

def digits2Clz {w : Nat} (n : BitVec w) : Nat := if n ≠ 0 then w - builtinClz w n.toNat else 0

/-- `_BitScanReverse`: the index of the highest bit, if there is one. -/
def bitScanReverse {w : Nat} (n : BitVec w) : Option Nat :=
  if n ≠ 0 then some (Nat.log 2 n.toNat) else none

def digits2Bsr {w : Nat} (n : BitVec w) : Nat := (bitScanReverse n).getD 0

def index32 : List Nat :=
  [0, 9, 1, 10, 13, 21, 2, 29, 11, 14, 16, 18, 22, 25, 3, 30, 8, 12, 20, 28, 15, 17, 24, 7, 19, 27,
    23, 6, 26, 5, 4, 32]

def index64 : List Nat :=
  [0, 47, 1, 56, 48, 27, 2, 60, 57, 49, 41, 37, 28, 16, 3, 61, 54, 58, 35, 52, 50, 42, 21, 44, 38,
    32, 29, 23, 17, 11, 4, 62, 46, 55, 26, 59, 40, 36, 15, 53, 34, 51, 20, 43, 31, 22, 10, 45, 25,
    39, 14, 33, 19, 30, 9, 24, 13, 18, 8, 12, 7, 6, 5, 63]

/-- De Bruijn multiplication with 32 bits; `none` is a read outside of the table. -/
def digits2DeBruijn32 (n : BitVec 32) : Option Nat :=
  let n := n ||| n >>> 1
  let n := n ||| n >>> 2
  let n := n ||| n >>> 4
  let n := n ||| n >>> 8
  let n := n ||| n >>> 16
  if n = 0xFFFFFFFF#32 then some 32
  else
    let n := n ||| (n + 1)
    index32[((n * 0x07c4acdd#32) >>> 27).toNat]?

/-- With 64 bits the next bit is set in any case. -/
def digits2DeBruijn64 (n : BitVec 64) : Option Nat :=
  let n := n ||| n >>> 1
  let n := n ||| n >>> 2
  let n := n ||| n >>> 4
  let n := n ||| n >>> 8
  let n := n ||| n >>> 16
  let n := n ||| n >>> 32
  let n := n ||| (n + 1)
  if n = 0xFFFFFFFFFFFFFFFF#64 then some 64
  else index64[((n * 0x03f79d71b4cb0a89#64) >>> 58).toNat]?

/-- The overload of `digits2` in a build, with the overloads that call another one. -/
def digits2 (variant : Variant) (target : Long) (overload : Overload)
    (n : BitVec (overload.width target)) : Option Nat :=
  match variant, target, overload with
  | .clz, _, _ => some (digits2Clz n)
  | .bsr, _, .int => some (digits2Bsr (n.setWidth target.width))
  | .bsr, _, _ => some (digits2Bsr n)
  | .deBruijn, .bits32, .int => digits2DeBruijn32 n
  | .deBruijn, .bits32, .long => digits2DeBruijn32 n
  | .deBruijn, .bits64, .int => digits2DeBruijn64 (n.setWidth 64)
  | .deBruijn, .bits64, .long => digits2DeBruijn64 n
  | .deBruijn, _, .longLong => digits2DeBruijn64 n

/-- What the arguments are to meet: the bit scan does not add one to its index, and the De Bruijn
variants cannot tell the two highest digits apart. -/
def Counted (variant : Variant) (target : Long) (overload : Overload)
    (n : BitVec (overload.width target)) : Prop :=
  match variant, target, overload with
  | .clz, _, _ => True
  | .bsr, _, _ => n.toNat = 0
  | .deBruijn, .bits32, .int => n.toNat < 2^30 ∨ 2^31 ≤ n.toNat
  | .deBruijn, .bits32, .long => n.toNat < 2^30 ∨ 2^31 ≤ n.toNat
  | .deBruijn, .bits64, .int => True
  | .deBruijn, .bits64, .long => n.toNat < 2^62 ∨ 2^63 ≤ n.toNat
  | .deBruijn, _, .longLong => n.toNat < 2^62 ∨ 2^63 ≤ n.toNat

section
variable {w : Nat} (n : BitVec w)

theorem size_le_width : Nat.size n.toNat ≤ w := Nat.size_le.mpr n.isLt

theorem toNat_ne_zero (h : n ≠ 0) : n.toNat ≠ 0 := by
  intro hz
  apply h
  apply BitVec.eq_of_toNat_eq
  rw [hz]
  rfl

theorem digits2Clz_eq : digits2Clz n = Nat.size n.toNat := by
  unfold digits2Clz
  split_ifs with h
  · have hsize := size_eq_log n.toNat (toNat_ne_zero n h)
    have hw := size_le_width n
    rw [builtinClz]
    omega
  · rw [not_not] at h
    rw [h]
    rfl

theorem digits2_clz (n : BitVec 64) : Util.digits2 n.toNat = digits2Clz n := by
  have hzero : n.toNat ≠ 0 ↔ n ≠ 0 := by
    rw [Ne, Ne, BitVec.toNat_eq]
    rfl
  simp only [Util.digits2, digits2Clz, hzero]
  rfl

theorem digits2Bsr_eq : digits2Bsr n = Nat.size n.toNat - 1 := by
  unfold digits2Bsr bitScanReverse
  split_ifs with h
  · rw [Option.getD_some, size_eq_log n.toNat (toNat_ne_zero n h), Nat.add_sub_cancel]
  · rw [not_not] at h
    rw [h]
    rfl

theorem digits2Bsr_iff : digits2Bsr n = Nat.size n.toNat ↔ n.toNat = 0 := by
  have hpos : Nat.size n.toNat = 0 ↔ n.toNat = 0 := Nat.size_eq_zero
  rw [digits2Bsr_eq]
  omega

end

theorem digits2DeBruijn32_eq (n : BitVec 32) :
    digits2DeBruijn32 n = some (if Nat.size n.toNat = 31 then 32 else Nat.size n.toNat) := by
  have hsmear := (smeared_size n).step.step.step.step.step.eq (size_le_width n)
  have hk := size_le_width n
  rw [digits2DeBruijn32]
  generalize Nat.size n.toNat = k at hsmear hk
  simp only [Nat.mul_one, Nat.reduceMul] at hsmear
  simp only [hsmear]
  clear hsmear
  revert k
  decide

theorem digits2DeBruijn64_eq (n : BitVec 64) :
    digits2DeBruijn64 n = some (if Nat.size n.toNat = 63 then 64 else Nat.size n.toNat) := by
  have hsmear := (smeared_size n).step.step.step.step.step.step.eq (size_le_width n)
  have hk := size_le_width n
  rw [digits2DeBruijn64]
  generalize Nat.size n.toNat = k at hsmear hk
  simp only [Nat.mul_one, Nat.reduceMul] at hsmear
  simp only [hsmear]
  clear hsmear
  revert k
  decide

theorem taken_iff {w : Nat} (n : BitVec w) (k : Nat) :
    some (if Nat.size n.toNat = k + 1 then k + 2 else Nat.size n.toNat) =
      some (Nat.size n.toNat) ↔ n.toNat < 2^k ∨ 2^(k + 1) ≤ n.toNat := by
  have hlow : Nat.size n.toNat ≤ k ↔ n.toNat < 2^k := Nat.size_le
  have hhigh : k + 1 < Nat.size n.toNat ↔ 2^(k + 1) ≤ n.toNat := Nat.lt_size
  rw [Option.some.injEq, ← hlow, ← hhigh]
  split_ifs with h
  · omega
  · omega

theorem digits2DeBruijn32_iff (n : BitVec 32) :
    digits2DeBruijn32 n = some (Nat.size n.toNat) ↔ n.toNat < 2^30 ∨ 2^31 ≤ n.toNat := by
  rw [digits2DeBruijn32_eq]
  exact taken_iff n 30

theorem digits2DeBruijn64_iff (n : BitVec 64) :
    digits2DeBruijn64 n = some (Nat.size n.toNat) ↔ n.toNat < 2^62 ∨ 2^63 ≤ n.toNat := by
  rw [digits2DeBruijn64_eq]
  exact taken_iff n 62

theorem toNat_forward (n : BitVec 32) (target : Long) :
    (n.setWidth target.width).toNat = n.toNat := by
  apply BitVec.toNat_setWidth_of_le
  cases target <;> decide

theorem digits2Bsr_forward (n : BitVec 32) (target : Long) :
    digits2Bsr (n.setWidth target.width) = Nat.size n.toNat ↔ n.toNat = 0 := by
  rw [← toNat_forward n target]
  exact digits2Bsr_iff _

theorem digits2DeBruijn64_forward (n : BitVec 32) :
    digits2DeBruijn64 (n.setWidth 64) = some (Nat.size n.toNat) := by
  have hsame : (n.setWidth 64).toNat = n.toNat := toNat_forward n .bits64
  have hlt := n.isLt
  rw [← hsame]
  apply (digits2DeBruijn64_iff _).mpr
  omega

/-- When each variant of `digits2` counts the binary digits. -/
theorem digits2_iff (variant : Variant) (target : Long) (overload : Overload)
    (n : BitVec (overload.width target)) :
    digits2 variant target overload n = some (Nat.size n.toNat) ↔
      Counted variant target overload n := by
  have hsome (x y : Nat) : some x = some y ↔ x = y := Option.some_inj
  cases variant with
  | clz => exact iff_of_true (congrArg some (digits2Clz_eq n)) trivial
  | bsr =>
    cases overload with
    | int => exact (hsome _ _).trans (digits2Bsr_forward n target)
    | long => exact (hsome _ _).trans (digits2Bsr_iff n)
    | longLong => exact (hsome _ _).trans (digits2Bsr_iff n)
  | deBruijn =>
    cases target with
    | bits32 =>
      cases overload with
      | int => exact digits2DeBruijn32_iff n
      | long => exact digits2DeBruijn32_iff n
      | longLong => exact digits2DeBruijn64_iff n
    | bits64 =>
      cases overload with
      | int => exact iff_of_true (digits2DeBruijn64_forward n) trivial
      | long => exact digits2DeBruijn64_iff n
      | longLong => exact digits2DeBruijn64_iff n

/-- One bit has the index 0. -/
theorem bit_scan_one : digits2 .bsr .bits32 .long 1#32 ≠ some (Nat.size 1) := by
  decide

end Libnodecc.Util.Digits2
