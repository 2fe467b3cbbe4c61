import Libnodecc.Buffer.OwnBytes

namespace Libnodecc.Buffer

open Util

/-- `data[pos]` and what follows is written; nothing can be written through a null pointer. -/
def writeAt (heap : Heap UInt8) (data : Option Ptr) (pos : Nat) (bytes : Bytes) :
    Call (Heap UInt8) :=
  match data with
  | none => .error .undefined
  | some ptr => defined (heap.write ⟨ptr.block, ptr.off + pos⟩ bytes)

/-- `buffer_view(const void*, size_t)`. -/
def weakView (data : Option Ptr) (size : Nat) : Ref :=
  ⟨if size = 0 then none else data, if data.isSome then size else 0, none⟩

/-- `string::_reset_unsafe` of an empty string. -/
def stringReset (malloc : Malloc) (heap : Heap UInt8) (n : Nat) : Call (Heap UInt8 × Ref) :=
  if n = 0 then .ok (heap, .null)
  else do
    let (heap, str) ← allocate malloc heap (sizeT (n + 1)) []
    if str.size = 0 then pure (heap, str)
    else do
      let heap ← writeAt heap str.data n [0]
      pure (heap, { str with size := n })

/-- `string::_copy` of `this`, to the string that the caller gets. -/
def stringCopy (malloc : Malloc) (heap : Heap UInt8) (this : Ref) (n : Nat) :
    Call (Heap UInt8 × Ref) := do
  let n := if n = 0 then this.size else n
  let (heap, str) ← stringReset malloc heap n
  let heap ← (if this.data.isSome then do
      let bytes ← defined (heap.read this.data (min n this.size + 1))
      writeAt heap str.data 0 bytes
    else pure heap)
  let heap ← writeAt heap str.data n [0]
  pure (heap, str)

/-- `string(const buffer_view&)`. -/
def stringOfView (malloc : Malloc) (heap : Heap UInt8) (other : Ref) : Call (Heap UInt8 × Ref) :=
  if other.size = 0 then .ok (heap, .null)
  else do
    let (heap, str) ← stringReset malloc heap other.size
    if str.size = 0 then pure (heap, str)
    else do
      let bytes ← defined (heap.read other.data other.size)
      let heap ← writeAt heap str.data 0 bytes
      let heap ← writeAt heap str.data other.size [0]
      pure (heap, str)

/-- What a string points to is there, and a NUL comes behind what it shows. -/
def Terminated (heap : Heap UInt8) (ref : Ref) : Prop :=
  ∀ ptr, ref.data = some ptr → ∃ blk, heap[ptr.block]? = some blk ∧ blk.freed = false ∧
    blk.cells[ptr.off + ref.size]? = some 0

instance (heap : Heap UInt8) (ref : Ref) : Decidable (Terminated heap ref) :=
  match h : ref.data with
  | none => isTrue fun ptr hptr => by cases h.symm.trans hptr
  | some ptr =>
    match hblk : heap[ptr.block]? with
    | none => isFalse fun hterminated => by
        obtain ⟨blk, hblk', -⟩ := hterminated ptr h
        cases hblk.symm.trans hblk'
    | some blk =>
      decidable_of_iff (blk.freed = false ∧ blk.cells[ptr.off + ref.size]? = some 0)
        (by simp [Terminated, h, hblk])

def newHeap (heap : Heap UInt8) (cells : Bytes) : Heap UInt8 := heap ++ [⟨cells, some 1, false⟩]

/-- The reference to `n` bytes of that block. -/
def newRef (heap : Heap UInt8) (n : Nat) : Ref := ⟨some ⟨heap.length, 0⟩, n, some heap.length⟩

/-- Cells for `n` bytes and a NUL behind them. -/
structure StringCells (n : Nat) (cells : Bytes) : Prop where
  length : cells.length = n + 1
  small : n + 1 < 2^63
  last : cells[n]? = some 0

section
variable {heap : Heap UInt8} {n : Nat} {cells : Bytes}

theorem Terminated.null (heap : Heap UInt8) : Terminated heap .null := by
  intro ptr hptr
  cases hptr

theorem Terminated.keeps {heap' : Heap UInt8} {ref : Ref} (h : Terminated heap ref)
    (hcells : heap.SameCells heap') (hlive : heap'.Room ref.data ref.size) :
    Terminated heap' ref := by
  intro ptr hptr
  obtain ⟨blk, hblk, -, hlast⟩ := h ptr hptr
  obtain ⟨blk', hblk', hsame⟩ := hcells _ _ hblk
  rw [hptr] at hlive
  obtain ⟨live, hlive, hfree, -⟩ := hlive
  obtain rfl := Option.some.inj (hblk'.symm.trans hlive)
  exact ⟨blk', hblk', hfree, hsame ▸ hlast⟩

theorem StringCells.terminated (h : StringCells n cells) :
    Terminated (newHeap heap cells) (newRef heap n) := by
  intro ptr hptr
  obtain rfl : ⟨heap.length, 0⟩ = ptr := Option.some.inj hptr
  exact ⟨_, List.getElem?_concat_length .., rfl,
    (congrArg (cells[·]?) (Nat.zero_add n)).trans h.last⟩

theorem StringCells.overwrite {bytes : Bytes} (h : StringCells n cells) (hle : bytes.length ≤ n) :
    StringCells n (bytes ++ cells.drop bytes.length) := by
  refine ⟨?_, h.small, ?_⟩
  · rw [List.length_append, List.length_drop, h.length]
    omega
  · rw [List.getElem?_append_right hle, List.getElem?_drop, ← h.last]
    congr 1
    omega

theorem stringCells_of_length (hlength : cells.length = n + 1) (hsmall : n + 1 < 2^63) :
    StringCells n (cells.take n ++ [0]) := by
  have htake : (cells.take n).length = n := by
    rw [List.length_take]
    omega
  refine ⟨?_, hsmall, ?_⟩
  · rw [List.length_append, htake, List.length_singleton]
  · rw [List.getElem?_append_right (Nat.le_of_eq htake), htake, Nat.sub_self]
    rfl

theorem writeAt_newest (heap : Heap UInt8) (n : Nat) {bytes : Bytes} {pos : Nat}
    (h : pos + bytes.length ≤ cells.length) :
    writeAt (newHeap heap cells) (newRef heap n).data pos bytes =
      .ok (newHeap heap (cells.take pos ++ bytes ++ cells.drop (pos + bytes.length))) := by
  show defined (Heap.write _ ⟨heap.length, 0 + pos⟩ bytes) = _
  rw [Nat.zero_add, newHeap, Heap.write_newest heap cells bytes (some 1) pos h]
  rfl

theorem terminate_newest (heap : Heap UInt8) (hlength : cells.length = n + 1) :
    writeAt (newHeap heap cells) (newRef heap n).data n [0] =
      .ok (newHeap heap (cells.take n ++ [0])) := by
  rw [writeAt_newest heap n (by simp [hlength]),
    List.drop_eq_nil_of_le (by simp [hlength]), List.append_nil]

/-- A string without bytes has no memory, and neither does the longest one. -/
theorem stringReset_cases (malloc : Malloc) (heap : Heap UInt8) (hn : n < 2^64) :
    (n = 0 ∨ n = 2^64 - 1) ∧ stringReset malloc heap n = .ok (heap, .null) ∨
      malloc.serve heap.length (n + 1) = none ∧ stringReset malloc heap n = .error .badAlloc ∨
      0 < n ∧ ∃ cells, StringCells n cells ∧
        stringReset malloc heap n = .ok (newHeap heap cells, newRef heap n) := by
  by_cases hzero : n = 0
  · exact .inl ⟨.inl hzero, if_pos hzero⟩
  by_cases hmax : n = 2^64 - 1
  · refine .inl ⟨.inr hmax, ?_⟩
    rw [hmax]
    rfl
  have hsize : sizeT (n + 1) = n + 1 := sizeT_of_lt _ (by omega)
  rw [stringReset, if_neg hzero, hsize, allocate, if_neg (Nat.succ_ne_zero n)]
  cases hserve : malloc.serve heap.length (n + 1) with
  | none => exact .inr (.inl ⟨rfl, rfl⟩)
  | some bs =>
    obtain ⟨hlength, hsmall⟩ := malloc.served _ _ _ hserve
    have hwrite := terminate_newest heap hlength
    refine .inr (.inr ⟨Nat.pos_of_ne_zero hzero, bs.take n ++ [0],
      stringCells_of_length hlength hsmall, ?_⟩)
    show (writeAt (newHeap heap bs) (newRef heap n).data n [0] >>= fun heap' =>
      pure (heap', (newRef heap n))) = _
    rw [hwrite]
    rfl

theorem read_newest {data : Option Ptr} {m : Nat} (hroom : heap.Room data m) :
    (newHeap heap cells).read data m = some (heap.cellsAt data m) :=
  Heap.read_eq_some.mpr ⟨hroom.append_block _,
    Heap.cellsAt_sameCells (Heap.append_sameCells heap _) hroom m⟩

/-- A copy starts with the bytes that there is room for; the byte behind them is read, too. -/
theorem stringCopy_cases (malloc : Malloc) {this : Ref} {m : Nat}
    (hm : m = if n = 0 then this.size else n) (hpos : 0 < m) (hlt : m < 2^64 - 1)
    (hroom : this.data.isSome → heap.Room this.data (min m this.size + 1)) :
    malloc.serve heap.length (m + 1) = none ∧ stringCopy malloc heap this n = .error .badAlloc ∨
      ∃ cells, StringCells m cells ∧ heap.cellsAt this.data (min m this.size) <+: cells ∧
        stringCopy malloc heap this n = .ok (newHeap heap cells, newRef heap m) := by
  simp only [stringCopy, ← hm]
  rcases stringReset_cases malloc heap (show m < 2^64 by omega) with
    ⟨hnull, -⟩ | ⟨hserve, hrefused⟩ | ⟨-, cells, hcells, hreset⟩
  · omega
  · exact .inl ⟨hserve, congrArg (· >>= _) hrefused⟩
  · right
    rw [hreset]
    cases hdata : this.data with
    | none =>
      refine ⟨cells.take m ++ [0], stringCells_of_length hcells.length hcells.small,
        List.nil_prefix, ?_⟩
      show (writeAt (newHeap heap cells) (newRef heap m).data m [0] >>= fun heap' =>
        pure (heap', (newRef heap m))) = _
      rw [terminate_newest heap hcells.length]
      rfl
    | some ptr =>
      rw [hdata] at hroom
      have hread := hroom rfl
      have hlength := hread.cellsAt_length
      have hfits : 0 + (heap.cellsAt (some ptr) (min m this.size + 1)).length ≤ cells.length := by
        rw [hlength, hcells.length]
        omega
      have hwrite := writeAt_newest heap m hfits
      simp only [List.take_zero, List.nil_append, Nat.zero_add] at hwrite
      have hwritten : (heap.cellsAt (some ptr) (min m this.size + 1) ++
          cells.drop (heap.cellsAt (some ptr) (min m this.size + 1)).length).length = m + 1 := by
        rw [List.length_append, List.length_drop, hlength, hcells.length]
        omega
      refine ⟨_, stringCells_of_length hwritten hcells.small, ?_, ?_⟩
      · have hshort := (hread.mono (Nat.le_succ _)).cellsAt_length
        rw [List.prefix_iff_eq_take, hshort,
          List.take_append_of_le_length (by rw [List.length_take, hwritten]; omega),
          List.take_take, Nat.min_eq_left (Nat.min_le_left _ _),
          List.take_append_of_le_length (by omega), cellsAt_take (Nat.le_succ _)]
      · show ((defined ((newHeap heap cells).read (some ptr) (min m this.size + 1)) >>=
          fun bytes => writeAt (newHeap heap cells) (newRef heap m).data 0 bytes) >>=
          fun heap' => writeAt heap' (newRef heap m).data m [0] >>= fun heap'' =>
          pure (heap'', (newRef heap m))) = _
        rw [read_newest hread, call_defined, hwrite, call_bind]
        show (writeAt (newHeap heap _) (newRef heap m).data m [0] >>= _) = _
        rw [terminate_newest heap hwritten]
        rfl

/-- A string from a view has its bytes. -/
theorem stringOfView_cases (malloc : Malloc) {other : Ref} (hsmall : other.size < 2^63)
    (hroom : heap.Room other.data other.size) :
    stringOfView malloc heap other = .ok (heap, .null) ∨
      stringOfView malloc heap other = .error .badAlloc ∨
      ∃ cells, StringCells other.size cells ∧
        stringOfView malloc heap other = .ok (newHeap heap cells, newRef heap other.size) := by
  by_cases hzero : other.size = 0
  · exact .inl (if_pos hzero)
  rw [stringOfView, if_neg hzero]
  rcases stringReset_cases malloc heap (show other.size < 2^64 by omega) with
    ⟨hnull, -⟩ | ⟨-, hrefused⟩ | ⟨-, cells, hcells, hreset⟩
  · omega
  · exact .inr (.inl (congrArg (· >>= _) hrefused))
  · have hlength := hroom.cellsAt_length
    have hfits : 0 + (heap.cellsAt other.data other.size).length ≤ cells.length := by
      rw [hlength, hcells.length]
      omega
    have hwrite := writeAt_newest heap other.size hfits
    simp only [List.take_zero, List.nil_append, Nat.zero_add] at hwrite
    have hcells' := hcells.overwrite (Nat.le_of_eq hlength)
    refine .inr (.inr ⟨_, stringCells_of_length hcells'.length hcells.small, ?_⟩)
    rw [hreset, call_bind]
    have hpositive : (newRef heap other.size).size ≠ 0 := hzero
    simp only [if_neg hpositive, read_newest hroom, call_defined, hwrite, call_bind]
    show (writeAt (newHeap heap _) (newRef heap other.size).data _ [0] >>= _) = _
    rw [terminate_newest heap hcells'.length]
    rfl

end

end Libnodecc.Buffer
