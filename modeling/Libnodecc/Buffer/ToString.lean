import Libnodecc.Buffer.AppendNumeral
import Libnodecc.Buffer.StringMemory

namespace Libnodecc.Buffer

open Util

/-- The integer types `to_string` is overloaded for. -/
inductive Integer where
  | int
  | long
  | longLong
  | unsigned
  | unsignedLong
  | unsignedLongLong
  deriving DecidableEq

namespace Integer

def bits : Integer → Nat
  | int | unsigned => 32
  | long | longLong | unsignedLong | unsignedLongLong => 64

def signed : Integer → Bool
  | int | long | longLong => true
  | unsigned | unsignedLong | unsignedLongLong => false

/-- `std::numeric_limits::digits`. -/
def digits (type : Integer) : Nat := if type.signed then type.bits - 1 else type.bits

/-- `std::numeric_limits::digits10`: so many decimal digits fit into `digits` binary ones. -/
def digits10 (type : Integer) : Nat := Nat.log 10 (2^type.digits)

def InRange (type : Integer) (v : Int) : Prop :=
  (if type.signed then -2^type.digits else 0) ≤ v ∧ v < 2^type.digits

instance (type : Integer) (v : Int) : Decidable (type.InRange v) :=
  inferInstanceAs (Decidable (_ ∧ _))

/-- `to_string_size`. -/
def toStringSize (type : Integer) : Nat :=
  if type.signed then type.digits10 + 1 else type.digits10

def Fits (v : Int) : Integer → Prop
  | int => -10^9 < v
  | long | longLong => -10^18 < v
  | unsigned => v < 10^9
  | unsignedLong | unsignedLongLong => v < 10^19

instance (v : Int) (type : Integer) : Decidable (type.Fits v) := by
  cases type <;> unfold Fits <;> infer_instance

end Integer

def decimal (v : Int) : Bytes :=
  if v < 0 then 0x2d :: canonical 10 v.natAbs else canonical 10 v.natAbs

/-- `snprintf` to `capacity` bytes: as much of the text as there is room for, and a NUL. -/
def snprintf (heap : Heap UInt8) (data : Option Ptr) (capacity : Nat) (text : Bytes) :
    Call (Heap UInt8 × Nat) :=
  if capacity = 0 then .ok (heap, text.length)
  else do
    let heap ← writeAt heap data 0 (text.take (capacity - 1) ++ [0])
    pure (heap, text.length)

/-- `to_string_impl`; `none` is an assertion that failed. -/
def toString (ndebug : Bool) (malloc : Malloc) (heap : Heap UInt8) (type : Integer) (v : Int) :
    Call (Option (Heap UInt8 × Ref)) := do
  let (heap, str) ← stringReset malloc heap type.toStringSize
  if str.data.isSome then do
    let (heap, r) ← snprintf heap str.data (str.size + 1) (decimal v)
    if str.size < r then pure (if ndebug then some (heap, str) else none)
    else pure (some (heap, { str with size := r }))
  else pure (some (heap, str))

/-- No assertion fails, and the string shows the decimal representation. -/
def PrintsDecimal (ndebug : Bool) (malloc : Malloc) (heap : Heap UInt8) (type : Integer) (v : Int) :
    Prop :=
  ∃ heap' str, toString ndebug malloc heap type v = .ok (some (heap', str)) ∧
    heap'.read str.data str.size = some (decimal v)

theorem canonical_length_le {n k : Nat} (hk : 0 < k) : (canonical 10 n).length ≤ k ↔ n < 10^k := by
  rw [canonical_length 10 n (by decide), Nat.succ_le_iff]
  by_cases hn : n = 0
  · rw [hn, Nat.log_zero_right]
    exact iff_of_true hk (Nat.pow_pos (by decide))
  · exact Nat.log_lt_iff_lt_pow (by decide) hn

theorem decimal_length_le {v : Int} {k : Nat} (hk : 0 < k) :
    (decimal v).length ≤ k + 1 ↔ -10^k < v ∧ v < 10^(k + 1) := by
  unfold decimal
  split_ifs with hneg
  · rw [List.length_cons, Nat.succ_le_succ_iff, canonical_length_le hk]
    have hpow : (0 : Int) < 10^(k + 1) := by positivity
    zify
    rw [abs_of_neg hneg]
    omega
  · rw [canonical_length_le (Nat.succ_pos k)]
    have hpow : (0 : Int) < 10^k := by positivity
    zify
    rw [abs_of_nonneg (by omega)]
    omega

theorem fits_iff {type : Integer} {v : Int} (hv : type.InRange v) :
    (decimal v).length ≤ type.toStringSize ↔ type.Fits v := by
  cases type with
  | int =>
    have hsize : Integer.int.toStringSize = 9 + 1 := by decide +kernel
    have hrange : -2^31 ≤ v ∧ v < 2^31 := hv
    rw [hsize, decimal_length_le (by decide)]
    show _ ↔ -10^9 < v
    omega
  | long =>
    have hsize : Integer.long.toStringSize = 18 + 1 := by decide +kernel
    have hrange : -2^63 ≤ v ∧ v < 2^63 := hv
    rw [hsize, decimal_length_le (by decide)]
    show _ ↔ -10^18 < v
    omega
  | longLong =>
    have hsize : Integer.longLong.toStringSize = 18 + 1 := by decide +kernel
    have hrange : -2^63 ≤ v ∧ v < 2^63 := hv
    rw [hsize, decimal_length_le (by decide)]
    show _ ↔ -10^18 < v
    omega
  | unsigned =>
    have hsize : Integer.unsigned.toStringSize = 8 + 1 := by decide +kernel
    have hrange : 0 ≤ v ∧ v < 2^32 := hv
    rw [hsize, decimal_length_le (by decide)]
    show _ ↔ v < 10^9
    omega
  | unsignedLong =>
    have hsize : Integer.unsignedLong.toStringSize = 18 + 1 := by decide +kernel
    have hrange : 0 ≤ v ∧ v < 2^64 := hv
    rw [hsize, decimal_length_le (by decide)]
    show _ ↔ v < 10^19
    omega
  | unsignedLongLong =>
    have hsize : Integer.unsignedLongLong.toStringSize = 18 + 1 := by decide +kernel
    have hrange : 0 ≤ v ∧ v < 2^64 := hv
    rw [hsize, decimal_length_le (by decide)]
    show _ ↔ v < 10^19
    omega

/-- What `snprintf` leaves in the memory of the string. -/
theorem toString_eq {ndebug : Bool} {malloc : Malloc} {heap : Heap UInt8} {type : Integer}
    {v : Int} (hserved : toString ndebug malloc heap type v ≠ .error .badAlloc) :
    ∃ cells : Bytes, (decimal v).take type.toStringSize <+: cells ∧
      cells.length = type.toStringSize + 1 ∧
      toString ndebug malloc heap type v =
        if type.toStringSize < (decimal v).length then
          .ok (if ndebug then some (newHeap heap cells, newRef heap type.toStringSize) else none)
        else .ok (some (newHeap heap cells, newRef heap (decimal v).length)) := by
  have hsize : 0 < type.toStringSize ∧ type.toStringSize < 2^64 - 1 := by
    cases type <;> decide +kernel
  unfold toString at hserved ⊢
  rcases stringReset_cases malloc heap
      (show type.toStringSize < 2^64 by omega) with ⟨hzero, -⟩ | ⟨-, hrefused⟩ |
        ⟨-, cells, hcells, hreset⟩
  · omega
  · rw [hrefused] at hserved
    exact absurd rfl hserved
  · rw [hreset]
    have hlength : ((decimal v).take type.toStringSize ++ [(0 : UInt8)]).length ≤ cells.length := by
      rw [hcells.length, List.length_append, List.length_take, List.length_singleton]
      omega
    have hfits : 0 + ((decimal v).take type.toStringSize ++ [(0 : UInt8)]).length ≤
        cells.length := by
      rw [Nat.zero_add]
      exact hlength
    have hwrite := writeAt_newest heap type.toStringSize hfits
    rw [List.take_zero, List.nil_append, Nat.zero_add] at hwrite
    refine ⟨(decimal v).take type.toStringSize ++ [0] ++
      cells.drop ((decimal v).take type.toStringSize ++ [(0 : UInt8)]).length, ?_, ?_, ?_⟩
    · rw [List.append_assoc]
      exact List.prefix_append _ _
    · rw [List.length_append, List.length_drop, ← hcells.length]
      omega
    · show (writeAt (newHeap heap cells) (newRef heap type.toStringSize).data 0
        ((decimal v).take type.toStringSize ++ [0]) >>= _) >>= _ = _
      rw [hwrite]
      show (if type.toStringSize < (decimal v).length then _ else _) = _
      split_ifs <;> rfl

theorem read_newHeap {heap : Heap UInt8} {cells : Bytes} {n : Nat} (h : n ≤ cells.length) :
    (newHeap heap cells).read (newRef heap n).data n = some (cells.take n) := by
  refine Heap.read_eq_some.mpr ⟨⟨_, List.getElem?_concat_length .., rfl, by simpa using h⟩, ?_⟩
  simp [newHeap, newRef, Heap.cellsAt]

theorem prints_iff {ndebug : Bool} {malloc : Malloc} {heap : Heap UInt8} {type : Integer}
    {v : Int} (hserved : toString ndebug malloc heap type v ≠ .error .badAlloc) :
    PrintsDecimal ndebug malloc heap type v ↔ (decimal v).length ≤ type.toStringSize := by
  obtain ⟨cells, hprefix, hlength, heq⟩ := toString_eq hserved
  constructor
  · intro ⟨heap', str, hstr, hread⟩
    by_contra hlong
    -- the string would show as many bytes as were reserved
    rw [heq, if_pos (by omega)] at hstr
    cases ndebug with
    | false => cases hstr
    | true =>
      cases hstr
      rw [show (newRef heap type.toStringSize).size = type.toStringSize from rfl,
        read_newHeap (by omega)] at hread
      have hcut := congrArg List.length (Option.some.inj hread)
      rw [List.length_take] at hcut
      omega
  · intro hfits
    rw [List.take_of_length_le hfits] at hprefix
    refine ⟨newHeap heap cells, newRef heap (decimal v).length, ?_, ?_⟩
    · rw [heq, if_neg (by omega)]
    · rw [show (newRef heap (decimal v).length).size = (decimal v).length from rfl,
        read_newHeap (by omega), ← List.prefix_iff_eq_take.mp hprefix]

/-- `to_string` of a value prints it if and only if its text has room, which negative numbers of ten
digits or more, and unsigned numbers of ten digits, do not have. -/
theorem to_string_iff (ndebug : Bool) (malloc : Malloc) (heap : Heap UInt8) (type : Integer)
    (v : Int) (hv : type.InRange v)
    (hserved : toString ndebug malloc heap type v ≠ .error .badAlloc) :
    (PrintsDecimal ndebug malloc heap type v ↔ type.Fits v) ∧
      ((decimal v).length ≤ type.toStringSize ↔ type.Fits v) :=
  ⟨(prints_iff hserved).trans (fits_iff hv), fits_iff hv⟩

theorem to_string_iff_negative :
    PrintsDecimal false .zeroed [] .int (-999999999) := by
  have hok : (toString false .zeroed [] .int (-999999999)).isOk = true := by decide +kernel
  have hserved : toString false .zeroed [] .int (-999999999) ≠ .error .badAlloc := by
    intro h
    rw [h] at hok
    cases hok
  exact (to_string_iff false .zeroed [] .int (-999999999) (by decide) hserved).1.mpr (by decide)

/-- The assertion fails for the largest `unsigned int`, and for the smallest `int`. -/
theorem to_string_asserts :
    (Integer.unsigned.InRange 4294967295 ∧
      ¬PrintsDecimal false .zeroed [] .unsigned 4294967295) ∧
    Integer.int.InRange (-2147483648) ∧ ¬PrintsDecimal false .zeroed [] .int (-2147483648) := by
  refine ⟨⟨by decide, ?_⟩, by decide, ?_⟩
  · intro ⟨heap, str, h, _⟩
    have hfails : ((toString false .zeroed [] .unsigned 4294967295).toOption.bind id).isSome =
        false := by decide +kernel
    rw [h] at hfails
    cases hfails
  · intro ⟨heap, str, h, _⟩
    have hfails : ((toString false .zeroed [] .int (-2147483648)).toOption.bind id).isSome =
        false := by decide +kernel
    rw [h] at hfails
    cases hfails

end Libnodecc.Buffer
