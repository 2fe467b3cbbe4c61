import Libnodecc.Framework.CountedHeap
import Libnodecc.Framework.Run
import Libnodecc.Util.Fnv

namespace Libnodecc.Buffer

open Util

/-- What a `buffer_view` refers to. -/
structure Area where
  data : Option Ptr
  size : Nat
  deriving DecidableEq

namespace Area

def null : Area := ⟨none, 0⟩

/-- `buffer_view(const void*, std::size_t)`. -/
def view (data : Option Ptr) (size : Nat) : Area :=
  ⟨if size = 0 then none else data, if data.isSome then size else 0⟩

def bytes (heap : Heap UInt8) (a : Area) : Bytes := heap.cellsAt a.data a.size

def Live (heap : Heap UInt8) (a : Area) : Prop := heap.Room a.data a.size

instance (heap : Heap UInt8) (a : Area) : Decidable (a.Live heap) :=
  inferInstanceAs (Decidable (heap.Room a.data a.size))

end Area

/-- The classes with a `hashed_trait`. -/
inductive HashedClass where
  | hashedBuffer
  | hashedBufferView
  | hashedString
  | literalString
  deriving DecidableEq

/-- An object of one of these classes; `constHash` is its `_hash`, zero where it is not known. -/
structure Hashed where
  cls : HashedClass
  area : Area
  constHash : Nat
  deriving DecidableEq

namespace Hashed

/-- What `hash` computes for bytes. -/
def hashOf (bs : Bytes) : Nat :=
  let hash := Fnv1a.hash .u64 bs
  if hash = 0 then 1 else hash

/-- `hashed_trait::hash`. -/
def hash (heap : Heap UInt8) (this : Hashed) : Nat :=
  if this.constHash = 0 then hashOf (this.area.bytes heap) else this.constHash

/-- The object once `hash` was called. -/
def cached (heap : Heap UInt8) (this : Hashed) : Hashed := { this with constHash := this.hash heap }

/-- Where `equals` comes to the hashes. -/
def Compares (this other : Hashed) : Prop :=
  this.area.size = other.area.size ∧ this.area.data ≠ other.area.data ∧
    this.area.data.isSome ∧ other.area.data.isSome

instance (this other : Hashed) : Decidable (this.Compares other) := by
  unfold Compares
  infer_instance

/-- `hashed_trait::equals`. -/
def equals (heap : Heap UInt8) (this other : Hashed) : Bool :=
  this.area.size == other.area.size &&
    (this.area.data == other.area.data ||
      this.area.data.isSome && other.area.data.isSome &&
        this.hash heap == other.hash heap && this.area.bytes heap == other.area.bytes heap)

/-- The default constructors; a `literal_string` has none. -/
def default (cls : HashedClass) : Option Hashed :=
  match cls with
  | .literalString => none
  | _ => some ⟨cls, .null, 0⟩

/-- The copy constructors. -/
def copy (other : Hashed) : Hashed :=
  match other.cls with
  | .hashedBuffer | .hashedString => ⟨other.cls, other.area, other.constHash⟩
  | .hashedBufferView | .literalString =>
    ⟨other.cls, .view other.area.data other.area.size, other.constHash⟩

/-- `hashed_buffer(const buffer&)`, `hashed_buffer_view(const buffer_view&)` and
`hashed_string(const string&)`. -/
def ofPlain (cls : HashedClass) (other : Area) : Option Hashed :=
  match cls with
  | .hashedBuffer | .hashedString => some ⟨cls, other, 0⟩
  | .hashedBufferView => some ⟨cls, .view other.data other.size, 0⟩
  | .literalString => none

/-- `hashed_buffer(const literal_string&)`, and `hashed_buffer_view(const hashed_buffer_view&)` for
a literal. -/
def ofLiteral (cls : HashedClass) (other : Hashed) : Option Hashed :=
  if other.cls = .literalString ∧ (cls = .hashedBuffer ∨ cls = .hashedBufferView) then
    some ⟨cls, .view other.area.data other.area.size, other.constHash⟩
  else none

/-- `literal_string(const char*, std::size_t)`. -/
def literal (heap : Heap UInt8) (str : Area) : Hashed :=
  ⟨.literalString, .view str.data str.size,
    Fnv1a.constHash .u64 (Fnv1a.basis .u64) (str.bytes heap)⟩

/-- The assignments of a `buffer_view`, a `buffer` or a `string`, after which the hash is not
known. -/
def assignPlain (this : Hashed) (other : Area) : Hashed :=
    { this with area := other, constHash := 0 }

/-- What the assignments of an object with a hash take over. -/
def assign (this other : Hashed) : Hashed :=
  { this with area := other.area, constHash := other.constHash }

/-- `buffer::_release`, and with it `buffer::reset`: the hash stays. -/
def release (this : Hashed) : Hashed := { this with area := .null }

/-- The objects that are a `buffer`. -/
def Owns (this : Hashed) : Prop := this.cls = .hashedBuffer ∨ this.cls = .hashedString

instance (this : Hashed) : Decidable this.Owns := by
  unfold Owns
  infer_instance

end Hashed

/-- Memory, and the objects with a hash. Use counts and frees are left out: no object refers to
memory that was freed. -/
structure HashedState where
  heap : Heap UInt8
  values : List Hashed

namespace HashedState

def init : HashedState := ⟨[], []⟩

/-- Where new memory with `content` is; there is none for no bytes. -/
def newArea (s : HashedState) (content : Bytes) : Area :=
  if content = [] then .null else ⟨some ⟨s.heap.length, 0⟩, content.length⟩

def grow (s : HashedState) (cells : Bytes) : HashedState :=
  { s with heap := s.heap ++ [⟨cells, none, false⟩] }

def push (s : HashedState) (v : Hashed) : HashedState := { s with values := s.values ++ [v] }

def put (s : HashedState) (i : Nat) (v : Hashed) : HashedState :=
  { s with values := s.values.set i v }

end HashedState

/-- What is done to the objects. A `buffer_view`, `buffer`, `mutable_buffer` or `string` that takes
part stands as the memory it refers to. -/
inductive HashedOp where
  | callerMemory (bytes : Bytes)
  | default (cls : HashedClass)
  | copyConstruct (j : Nat)
  | bufferOfMemory (data : Option Ptr) (size : Nat)
  | viewOfMemory (data : Option Ptr) (size : Nat)
  | constructPlain (cls : HashedClass) (other : Area)
  | constructLiteral (cls : HashedClass) (j : Nat)
  | literal (str : Area)
  | assignPlain (i : Nat) (other : Area)
  | copyAssign (i j : Nat)
  | assignView (i j : Nat)
  | reset (i : Nat)
  | resetSize (i : Nat) (content : Bytes)
  | swap (i j : Nat)
  | swapPlain (i : Nat) (other : Area)
  | hash (i : Nat)
  | equals (i j : Nat)

open HashedState Hashed in
/-- `none` is an operation there is not, or on memory that is not there. -/
def hashedStep (s : HashedState) : HashedOp → Option HashedState
  | .callerMemory bytes => some (s.grow bytes)
  | .default cls => do
    let v ← Hashed.default cls
    some (s.push v)
  | .copyConstruct j => do
    let other ← s.values[j]?
    some (s.push (copy other))
  | .bufferOfMemory data size =>
    -- `buffer(const void*, std::size_t)` copies
    let other := Area.view data size
    if other.Live s.heap then
      let content := other.bytes s.heap
      some ((s.grow content).push ⟨.hashedBuffer, s.newArea content, 0⟩)
    else none
  | .viewOfMemory data size =>
    let other := Area.view data size
    if other.Live s.heap then some (s.push ⟨.hashedBufferView, other, 0⟩) else none
  | .constructPlain cls other => do
    let v ← ofPlain cls other
    if other.Live s.heap then some (s.push v) else none
  | .constructLiteral cls j => do
    let other ← s.values[j]?
    let v ← ofLiteral cls other
    some (s.push v)
  | .literal str =>
    -- the characters of a string literal are memory that stays, like the caller's
    if str.Live s.heap then some (s.push (Hashed.literal s.heap str)) else none
  | .assignPlain i other => do
    let this ← s.values[i]?
    if other.Live s.heap then some (s.put i (Hashed.assignPlain this other)) else none
  | .copyAssign i j => do
    let this ← s.values[i]?
    -- `buffer::operator=` releases before it reads the other one, which may be the same
    let s := if this.Owns then s.put i this.release else s
    let this ← s.values[i]?
    let other ← s.values[j]?
    if this.cls = other.cls then some (s.put i (this.assign other)) else none
  | .assignView i j => do
    let this ← s.values[i]?
    let other ← s.values[j]?
    if (this.cls = .hashedBuffer ∨ this.cls = .hashedBufferView) ∧
        (other.cls = .hashedBufferView ∨ other.cls = .literalString) then
      some (s.put i (this.assign other))
    else none
  | .reset i => do
    let this ← s.values[i]?
    if this.Owns then some (s.put i this.release) else none
  | .resetSize i content => do
    let this ← s.values[i]?
    if this.cls = .hashedString then
      some ((s.grow (content ++ [0])).put i { this with area := s.newArea content })
    else none
  | .swap i j => do
    let this ← s.values[i]?
    let other ← s.values[j]?
    if this.Owns ∧ other.Owns then
      some ((s.put i { this with area := other.area }).put j { other with area := this.area })
    else none
  | .swapPlain i other => do
    let this ← s.values[i]?
    if this.Owns ∧ other.Live s.heap then some (s.put i { this with area := other }) else none
  | .hash i => do
    let this ← s.values[i]?
    some (s.put i (this.cached s.heap))
  | .equals i j => do
    let this ← s.values[i]?
    let other ← s.values[j]?
    if this.Compares other then
      some ((s.put i (this.cached s.heap)).put j (other.cached s.heap))
    else some s

end Libnodecc.Buffer
