import Mathlib.Data.List.Basic

namespace Libnodecc

abbrev Bytes := List UInt8

def ascii (s : String) : Bytes := s.toList.map fun c => UInt8.ofNat c.toNat

/-- What a `buffer` shows: nothing when its data pointer is null. -/
abbrev Buf := Option Bytes

namespace Buf

def bytes (b : Buf) : Bytes := b.getD []

def size (b : Buf) : Nat := b.bytes.length

/-- `buffer_view(data, size)`. -/
def view (bs : Bytes) : Buf := if bs = [] then none else some bs

/-- `buffer::slice`. -/
def slice (b : Buf) (first last : Nat) : Buf :=
  b.bind fun bs =>
    let cbeg := min first bs.length
    let cend := min last bs.length
    if cbeg < cend then some ((bs.take cend).drop cbeg) else none

/-- `mutable_buffer::append(const void*, size_t)`. -/
def appendData (b : Buf) (bs : Bytes) : Buf := if bs = [] then b else some (b.bytes ++ bs)

/-- `mutable_buffer::append(const buffer&)`: an empty buffer takes over the other one. -/
def append (b buf : Buf) : Buf :=
  if 0 < buf.size then
    if 0 < b.size then b.appendData buf.bytes else buf.slice 0 buf.size
  else b

@[simp] theorem bytes_none : bytes none = [] := rfl

@[simp] theorem bytes_some (bs : Bytes) : bytes (some bs) = bs := rfl

@[simp] theorem view_nil : view [] = none := rfl

@[simp] theorem bytes_view (bs : Bytes) : (view bs).bytes = bs := by
  unfold view
  split_ifs with h
  · rw [h]
    rfl
  · rfl

theorem view_ne_some_nil (bs : Bytes) : view bs ≠ some [] := by
  unfold view
  split_ifs with h
  · simp
  · simpa using h

theorem slice_all (bs : Bytes) (h : bs ≠ []) : slice (some bs) 0 bs.length = some bs := by
  have hpos : 0 < bs.length := List.length_pos_iff.mpr h
  simp [slice, hpos]

/-- Where both have bytes, appending is concatenation; nothing else changes a buffer. -/
theorem append_view (b : Buf) (bs : Bytes) (h : b ≠ some []) :
    b.append (view bs) = view (b.bytes ++ bs) := by
  by_cases hbs : bs = []
  · subst hbs
    cases b with
    | none => rfl
    | some cs =>
      have hcs : cs ≠ [] := by simpa using h
      simp [append, view, size, hcs]
  · have hv : view bs = some bs := by simp [view, hbs]
    have hpos : 0 < bs.length := List.length_pos_iff.mpr hbs
    cases b with
    | none => simp [append, hv, size, hbs, slice_all bs hbs]
    | some cs =>
      have hcs : cs ≠ [] := by simpa using h
      have hcpos : 0 < cs.length := List.length_pos_iff.mpr hcs
      simp [append, appendData, view, size, hbs, hcs, hpos, hcpos]

@[simp] theorem bytes_appendData (b : Buf) (bs : Bytes) :
    (b.appendData bs).bytes = b.bytes ++ bs := by
  unfold appendData
  split_ifs with h
  · simp [h]
  · rfl

@[simp] theorem bytes_append (b buf : Buf) : (b.append buf).bytes = b.bytes ++ buf.bytes := by
  have hsize (c : Buf) : 0 < c.size ↔ c.bytes ≠ [] := List.length_pos_iff
  unfold append
  split_ifs with hbuf hb
  · exact bytes_appendData b buf.bytes
  · have hnil : b.bytes = [] := not_not.mp fun h => hb ((hsize b).mpr h)
    cases buf with
    | none => exact absurd rfl ((hsize none).mp hbuf)
    | some bs => rw [size, bytes_some, slice_all bs ((hsize (some bs)).mp hbuf), hnil]; rfl
  · have hnil : buf.bytes = [] := not_not.mp fun h => hbuf ((hsize buf).mpr h)
    rw [hnil, List.append_nil]

theorem bytes_slice (b : Buf) (first last : Nat) :
    (b.slice first last).bytes = (b.bytes.take last).drop first := by
  cases b with
  | none => simp [slice]
  | some bs =>
    have htake : bs.take (min last bs.length) = bs.take last := by simp [List.take_eq_take_iff]
    simp only [slice, Option.bind_some, bytes_some, htake]
    split_ifs with h
    · have hfirst : min first bs.length = first := by omega
      rw [bytes_some, hfirst]
    · rw [bytes_none, List.drop_eq_nil_of_le]
      rw [List.length_take]
      omega

end Buf

end Libnodecc
