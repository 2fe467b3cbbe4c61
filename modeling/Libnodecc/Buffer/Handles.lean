import Libnodecc.Buffer.AppendNumber
import Libnodecc.Framework.CountedHeap

namespace Libnodecc.Buffer

open Util

/-- Memory of the caller; no object is larger than `PTRDIFF_MAX`. -/
structure Region where
  bytes : Bytes
  length_lt : bytes.length < 2^63

/-- `malloc`: what the memory of a new block holds, if it is served. -/
structure Malloc where
  serve : Nat → Nat → Option Bytes
  served : ∀ id n bs, serve id n = some bs → bs.length = n ∧ n < 2^63

/-- A `malloc` that always succeeds, with memory set to zero. -/
def Malloc.zeroed : Malloc where
  serve _ n := if n < 2^63 then some (List.replicate n 0) else none
  served id n bs h := by
    split_ifs at h with hn
    cases h
    exact ⟨List.length_replicate, hn⟩

/-- The type an operand is passed as. -/
inductive Kind where
  | buffer
  | mutable
  deriving DecidableEq

/-- A `buffer`, or with a `_capacity` a `mutable_buffer`. -/
structure Handle where
  ref : Ref
  capacity : Option Nat
  deriving DecidableEq

/-- The memory and the handles, a destroyed one being like one that was reset. -/
structure State where
  heap : Heap UInt8
  handles : List Handle

/-- Why a call does not return. -/
inductive Stop where
  | undefined
  | badAlloc
  deriving DecidableEq

abbrev Call := Except Stop

def defined {α : Type} : Option α → Call α
  | some a => .ok a
  | none => .error .undefined

def Kind.capacity (kind : Kind) (n : Nat) : Option Nat :=
  match kind with
  | .buffer => none
  | .mutable => some n

/-- `buffer(std::size_t)`, with `content` copied to the front of the new memory. -/
def allocate (malloc : Malloc) (heap : Heap UInt8) (n : Nat) (content : Bytes) :
    Call (Heap UInt8 × Ref) :=
  if n = 0 then .ok (heap, .null)
  else
    match malloc.serve heap.length n with
    | none => .error .badAlloc
    | some bs =>
      .ok (heap ++ [⟨content ++ bs.drop content.length, some 1, false⟩],
        ⟨some ⟨heap.length, 0⟩, n, some heap.length⟩)

/-- `buffer::copy`. -/
def copy (malloc : Malloc) (heap : Heap UInt8) (this : Ref) (n : Nat) :
    Call (Heap UInt8 × Ref) := do
  let n := if n = 0 then this.size else n
  let content ← (if this.data.isSome then defined (heap.read this.data (min n this.size)) else pure [])
  allocate malloc heap n content

/-- `data + pos`. -/
def advance (data : Option Ptr) (pos : Nat) : Option Ptr :=
  data.map fun ptr => ⟨ptr.block, ptr.off + pos⟩

/-- `buffer::slice`, before it retains. -/
def slice (this : Ref) (first last : Nat) : Ref :=
  let cbeg := min first this.size
  let cend := min last this.size
  if this.data.isSome ∧ cbeg < cend then ⟨advance this.data cbeg, cend - cbeg, this.p⟩ else .null

/-- A `buffer_view` of the caller's memory. -/
def callerView (heap : Heap UInt8) (block off size : Nat) : Call Ref :=
  match heap[block]? with
  | none => .error .undefined
  | some blk =>
    if blk.useCount = none ∧ blk.freed = false ∧ off + size ≤ blk.cells.length then
      .ok (if size = 0 then .null else ⟨some ⟨block, off⟩, size, none⟩)
    else .error .undefined

namespace State

def handle (s : State) (i : Nat) : Call Handle := defined s.handles[i]?

/-- The `_capacity` of a `mutable_buffer`. -/
def capacity (s : State) (i : Nat) : Call Nat := do
  let h ← s.handle i
  defined h.capacity

def setRef (s : State) (i : Nat) (ref : Ref) : State :=
  { s with handles := s.handles.modify i fun h => { h with ref := ref } }

def resize (s : State) (i size : Nat) : State :=
  { s with handles := s.handles.modify i fun h => { h with ref := { h.ref with size := size } } }

def putCapacity (s : State) (i : Nat) (capacity : Option Nat) : State :=
  { s with handles := s.handles.modify i fun h => { h with capacity := capacity } }

def push (s : State) (ref : Ref) (capacity : Option Nat) : State :=
  { s with handles := s.handles ++ [⟨ref, capacity⟩] }

/-- `buffer::_retain` of a copy of `ref`. -/
def retain (s : State) (ref : Ref) : State := { s with heap := s.heap.retain ref.p }

/-- `buffer::_release`. -/
def release (s : State) (i : Nat) : Call State := do
  let h ← s.handle i
  pure ({ s with heap := s.heap.release h.ref.p }.setRef i .null)

/-- `buffer::swap`. -/
def swapRefs (s : State) (i j : Nat) : Call State := do
  let this ← s.handle i
  let other ← s.handle j
  pure ((s.setRef i other.ref).setRef j this.ref)

/-- `buffer::operator=(const buffer&)`. -/
def assign (s : State) (i j : Nat) : Call State := do
  let s ← s.release i
  let other ← s.handle j
  pure ((s.retain other.ref).setRef i other.ref)

/-- `buffer::operator=(buffer&&)`. -/
def assignMoved (s : State) (i j : Nat) : Call State := do
  let s ← s.release i
  s.swapRefs i j

/-- `buffer::operator=(buffer&&)` from a temporary, which is empty afterwards. -/
def assignTemporary (s : State) (i : Nat) (temporary : Ref) : Call State := do
  let s ← s.release i
  pure (s.setRef i temporary)

/-- The capacity a handle of type `kind` takes over from `other`, passed as `passed`. -/
def takenCapacity (kind passed : Kind) (other : Handle) : Call (Option Nat) :=
  match passed with
  | .buffer => .ok (kind.capacity other.ref.size)
  | .mutable => do
    let n ← defined other.capacity
    pure (kind.capacity n)

def kind (h : Handle) : Kind := if h.capacity.isSome then .mutable else .buffer

def takeCapacity (s : State) (i : Nat) (passed : Kind) (j : Nat) : Call State := do
  let this ← s.handle i
  let other ← s.handle j
  let capacity ← takenCapacity (kind this) passed other
  pure (s.putCapacity i capacity)

section
variable (malloc : Malloc)

/-- `*this = this->copy(n)` with `n` not zero, then `_capacity = _size`. -/
def reallocate (s : State) (i n : Nat) : Call State := do
  let this ← s.handle i
  let (heap, temporary) ← copy malloc s.heap this.ref n
  let s ← { s with heap := heap }.assignTemporary i temporary
  pure (s.putCapacity i (some temporary.size))

/-- `mutable_buffer::_expand_size`. -/
def expandSize (s : State) (i n : Nat) : Call (State × Option Ptr) := do
  let prev ← s.handle i
  let capacity ← s.capacity i
  let size := sizeT (n + prev.ref.size)
  let s ← (if capacity < size then
      s.reallocate malloc i (max 16 (max size (sizeT (capacity + capacity / 2))))
    else pure s)
  let this ← s.handle i
  match this.ref.data with
  | some _ => pure (s.resize i size, advance this.ref.data prev.ref.size)
  | none => if prev.ref.size = 0 then pure (s.resize i size, none) else throw .undefined

/-- `mutable_buffer::append(const void*, size_t)`; the bytes are read once there is room. -/
def append (s : State) (i n : Nat) (data : Heap UInt8 → Option Bytes) : Call State := do
  let (s, p) ← s.expandSize malloc i n
  match p with
  | none => pure s
  | some ptr =>
    let bytes ← defined (data s.heap)
    let heap ← defined (s.heap.write ptr bytes)
    pure { s with heap := heap }

/-- `mutable_buffer::append(const buffer&, size_t, size_t)`. -/
def appendBuffer (s : State) (i j pos count : Nat) : Call State := do
  let this ← s.handle i
  let _ ← s.capacity i
  let buf ← s.handle j
  if pos < buf.ref.size ∧ 0 < count then
    let count := min count (buf.ref.size - pos)
    if 0 < this.ref.size then
      s.append malloc i count fun heap => heap.read (advance buf.ref.data pos) count
    else
      let temporary := Buffer.slice buf.ref pos count
      let s ← (s.retain temporary).assignTemporary i temporary
      pure (s.putCapacity i (some temporary.size))
  else pure s

/-- `mutable_buffer::append_number`. -/
def appendNumber (build : Build) (s : State) (i n base : Nat) : Call State := do
  let _ ← s.capacity i
  if 2 ≤ base ∧ base ≤ 36 then
    let length := digits build n base
    let div := ipow base (subSizeT length 1)
    s.append malloc i length fun _ => if div = 0 then none else some (Buf.digitLoop n base 64 div)
  else pure s

/-- `mutable_buffer::set_size`. -/
def setSize (s : State) (i size : Nat) : Call State := do
  let capacity ← s.capacity i
  let s ← (if capacity < size then
      s.reallocate malloc i (max 16 (max size (sizeT (capacity + capacity / 2))))
    else if sizeT (size + size / 2) ≤ capacity then s.reallocate malloc i (max 16 size)
    else pure s)
  let capacity ← s.capacity i
  pure (s.resize i (min capacity size))

/-- `mutable_buffer::set_capacity`. -/
def setCapacity (s : State) (i capacity : Nat) : Call State := do
  let prev ← s.handle i
  let s ← s.setSize malloc i capacity
  let this ← s.handle i
  pure (if prev.ref.size < this.ref.size then s.resize i prev.ref.size else s)

end

end State

/-- Bytes that are passed as a pointer or a `buffer_view`: those of the caller, or shown by a
handle. -/
inductive Source where
  | caller (region : Region)
  | shown (j : Nat)

def Source.size (s : State) : Source → Option Nat
  | caller region => some region.bytes.length
  | shown j => (s.handles[j]?).map fun h => h.ref.size

/-- The bytes from `pos` on, as the memory has them when they are read. -/
def Source.read (s : State) (pos n : Nat) : Source → Heap UInt8 → Option Bytes
  | caller region, _ =>
    if pos + n ≤ region.bytes.length then some ((region.bytes.drop pos).take n) else none
  | shown j, heap => s.handles[j]?.bind fun h => heap.read (advance h.ref.data pos) n

/-- The operations of `buffer` and `mutable_buffer`, on handles by their number. -/
inductive Op where
  | callerMemory (region : Region)
  | construct (kind : Kind)
  | constructSize (kind : Kind) (n : Nat)
  | constructCopy (region : Region)
  | constructWeak (block off size : Nat)
  | constructDeleter (region : Region)
  | copyConstruct (kind passed : Kind) (j : Nat)
  | moveConstruct (kind passed : Kind) (j : Nat)
  | copy (j n : Nat)
  | slice (kind : Kind) (j first last : Nat)
  | assignView (i block off size : Nat)
  | copyAssign (i : Nat) (passed : Kind) (j : Nat)
  | moveAssign (i : Nat) (passed : Kind) (j : Nat)
  | swap (i : Nat) (passed : Kind) (j : Nat)
  | reset (i : Nat)
  | append (i : Nat) (source : Source) (pos n : Nat)
  | appendView (i : Nat) (source : Source) (pos count : Nat)
  | appendBuffer (i j pos count : Nat)
  | pushBack (i : Nat) (ch : Region)
  | appendNumber (i n base : Nat)
  | setSize (i size : Nat)
  | setCapacity (i capacity : Nat)
  | clear (i : Nat)

open State in
def call (build : Build) (malloc : Malloc) (s : State) : Op → Call State
  | .callerMemory region => .ok { s with heap := s.heap ++ [⟨region.bytes, none, false⟩] }
  | .construct kind => .ok (s.push .null (kind.capacity 0))
  | .constructSize kind n => do
    let (heap, ref) ← allocate malloc s.heap n []
    pure (match kind with
      | .buffer => { s with heap := heap }.push ref none
      | .mutable => { s with heap := heap }.push { ref with size := 0 } (some ref.size))
  | .constructCopy region => do
    let (heap, ref) ← allocate malloc s.heap region.bytes.length region.bytes
    pure ({ s with heap := heap }.push ref none)
  | .constructWeak block off size => do
    let ref ← callerView s.heap block off size
    pure (s.push ref none)
  | .constructDeleter region =>
    .ok (State.push { s with heap := s.heap ++ [⟨region.bytes, some 1, false⟩] }
      ⟨some ⟨s.heap.length, 0⟩, region.bytes.length, some s.heap.length⟩ none)
  | .copyConstruct kind passed j => do
    let other ← s.handle j
    let capacity ← takenCapacity kind passed other
    pure ((s.retain other.ref).push other.ref capacity)
  | .moveConstruct kind passed j => do
    let other ← s.handle j
    let s := s.setRef j .null
    let moved ← s.handle j
    let capacity ← takenCapacity kind passed moved
    pure (s.push other.ref capacity)
  | .copy j n => do
    let this ← s.handle j
    let (heap, ref) ← copy malloc s.heap this.ref n
    pure ({ s with heap := heap }.push ref none)
  | .slice kind j first last => do
    let this ← s.handle j
    let ref := slice this.ref first last
    match kind with
    | .buffer => pure ((s.retain ref).push ref none)
    | .mutable =>
      let capacity ← s.capacity j
      let skipped := min first this.ref.size
      pure ((s.retain ref).push ref (some (if ref.data.isSome then subSizeT capacity skipped else 0)))
  | .assignView i block off size => do
    let this ← s.handle i
    let ref ← callerView s.heap block off size
    if this.capacity.isNone then s.assignTemporary i ref else throw .undefined
  | .copyAssign i passed j => do
    let s ← s.assign i j
    s.takeCapacity i passed j
  | .moveAssign i passed j => do
    let s ← s.assignMoved i j
    s.takeCapacity i passed j
  | .swap i passed j => do
    let s ← s.swapRefs i j
    match passed with
    | .buffer => pure s
    | .mutable =>
      let other ← s.handle j
      let _ ← s.capacity j
      pure (s.putCapacity j (some other.ref.size))
  | .reset i => do
    let s ← s.release i
    let this ← s.handle i
    pure (s.putCapacity i ((kind this).capacity 0))
  | .append i source pos n => s.append malloc i n (source.read s pos n)
  | .appendView i source pos count => do
    let this ← s.handle i
    let _ ← s.capacity i
    let size ← defined (source.size s)
    if pos < size ∧ 0 < count then
      let count := min count (size - pos)
      if 0 < this.ref.size then s.append malloc i count (source.read s pos count) else pure s
    else pure s
  | .appendBuffer i j pos count => s.appendBuffer malloc i j pos count
  | .pushBack i ch => s.append malloc i ch.bytes.length fun _ => some ch.bytes
  | .appendNumber i n base => s.appendNumber malloc build i n base
  | .setSize i size => s.setSize malloc i size
  | .setCapacity i capacity => s.setCapacity malloc i capacity
  | .clear i => do
    let _ ← s.capacity i
    pure (s.resize i 0)

/-- `none` is a call that does not exist or whose behaviour is undefined. An allocation that fails
is the first thing a call does: it throws, or terminates, with all handles as they were. -/
def step (build : Build) (malloc : Malloc) (s : State) (op : Op) : Option State :=
  match call build malloc s op with
  | .ok t => some t
  | .error .badAlloc => some s
  | .error .undefined => none

def State.init : State := ⟨[], []⟩

end Libnodecc.Buffer
