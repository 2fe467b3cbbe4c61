import Libnodecc.Framework.RefCount
import Libnodecc.Util.SizeT

namespace Libnodecc.Buffer.Counting

/-- Memory a pointer is into: that of a control block, or some other of the caller's. -/
inductive Area where
  | counted (b : Nat)
  | caller (region : Nat)
  deriving DecidableEq

structure Pointer where
  area : Area
  off : Nat
  deriving DecidableEq

/-- The fields of `buffer`. -/
structure Fields where
  data : Option Pointer
  size : Nat
  p : Option Nat
  deriving DecidableEq

/-- `buffer::_reset_zero`. -/
def Fields.zero : Fields := ⟨none, 0, none⟩

/-- A `control_base` for `extent` bytes of memory. A default one is in the block it is for; the
other ones have a deleter. -/
structure Control where
  isDefault : Bool
  extent : Nat
  frees : Nat
  deleterCalls : Nat
  deriving DecidableEq

/-- The last reference is released: `std::free(base)`, or `free()` and `delete this`. -/
def Control.free (c : Control) : Control :=
  if c.isDefault then { c with frees := c.frees + 1 }
  else { c with frees := c.frees + 1, deleterCalls := c.deleterCalls + 1 }

def Control.alive (c : Control) : Bool := c.frees == 0 && c.deleterCalls == 0

/-- `control_base::retain` and `release`, for a `use_count` of type `size_t`. -/
def useCounting : Disposal Control where
  limit := 2^64
  alive := Control.alive
  dispose := Control.free

inductive Kind where
  | buffer
  | mutable
  | string
  | hashed
  deriving DecidableEq

/-- What a class adds to `buffer`: `_capacity`, or `_hash`. -/
inductive Derived where
  | buffer
  | mutable (capacity : Nat)
  | string
  | hashed (hash : Nat)
  deriving DecidableEq

def Derived.kind : Derived → Kind
  | .buffer => .buffer
  | .mutable _ => .mutable
  | .string => .string
  | .hashed _ => .hashed

def Derived.capacity : Derived → Nat
  | .mutable capacity => capacity
  | _ => 0

def Derived.hash : Derived → Nat
  | .hashed hash => hash
  | _ => 0

structure Handle where
  base : Fields
  derived : Derived
  deriving DecidableEq

/-- The control blocks, and the places for handles with what lives there. -/
structure State where
  blocks : List (Shared Control)
  objects : List (Option Handle)
  deriving DecidableEq

/-- Every handle takes `sizeof(buffer)` bytes of an address space of `2^64`. -/
def maxObjects : Nat := 2^64 / 24

def State.init (n : Fin (maxObjects + 1)) : State := ⟨[], List.replicate n none⟩

/-- Why a call does not return; `freed` is one that counts references in a block that was freed,
and `absent` a call that does not exist. -/
inductive Stop where
  | freed
  | nullAccess
  | badAlloc
  | absent
  deriving DecidableEq

abbrev Call := Except Stop

def touched {α : Type} : Option α → Call α
  | some a => .ok a
  | none => .error .freed

def need (stop : Stop) (c : Prop) [Decidable c] : Call Unit :=
  if c then .ok () else .error stop

/-- `size_t(control_size)`: that of a `default_control`, rounded up. -/
def controlSize : Nat := 32

/-- `buffer_view(const void*, size_t)`, as the fields of a buffer without a control block. -/
def weak (data : Option Pointer) (size : Nat) : Fields :=
  ⟨if size = 0 then none else data, if data.isSome then size else 0, none⟩

/-- A `buffer_view`: of some memory, or of what a handle shows. -/
inductive View where
  | memory (data : Option Pointer) (size : Nat)
  | handle (j : Nat)
  deriving DecidableEq

/-- Where a handle comes from: the constructors, and the functions that return one. `served` is the
answer of `malloc`. -/
inductive Source where
  | empty (kind : Kind)
  | sized (kind : Kind) (n : Nat) (served : Bool)
  | copied (kind passed : Kind) (j : Nat)
  | moved (kind passed : Kind) (j : Nat)
  | memory (kind : Kind) (view : View) (copy served : Bool)
  | literal (kind : Kind) (data : Option Pointer) (size hash : Nat)
  | stringOfView (view : View) (served : Bool)
  | stringOfMemory (data : Option Pointer) (size : Nat) (served : Bool)
  | deleter (kind : Kind) (isNull : Bool) (size : Nat) (served : Bool)
  | copy (j n : Nat) (served : Bool)
  | stringCopy (j n : Nat) (served : Bool)
  | slice (j first last : Nat)
  | mutableSlice (j first last : Nat)
  deriving DecidableEq

/-- The operations, on handles by their place. `this` and `passed` are the types as which the
operands are named. -/
inductive Op where
  | construct (i : Nat) (source : Source)
  | copyAssign (this : Kind) (i : Nat) (passed : Kind) (j : Nat)
  | moveAssign (this : Kind) (i : Nat) (passed : Kind) (j : Nat)
  | assignView (this : Kind) (i : Nat) (view : View) (hash : Nat)
  | swap (i : Nat) (passed : Kind) (j : Nat)
  | reset (this : Kind) (i : Nat)
  | resetString (i n : Nat) (served : Bool)
  | destroy (i : Nat)
  deriving DecidableEq

namespace State

def get (s : State) (i : Nat) : Call Handle :=
  match s.objects[i]? with
  | some (some h) => .ok h
  | _ => .error .absent

/-- The handle at `i` as one of its class, or as a `buffer`. -/
def getAs (s : State) (kind : Kind) (i : Nat) : Call Handle := do
  let h ← s.get i
  need .absent (kind = .buffer ∨ kind = h.derived.kind)
  pure h

def put (s : State) (i : Nat) (o : Option Handle) : State :=
  { s with objects := s.objects.set i o }

/-- `buffer::_retain` of a copy of `r`. -/
def retain (s : State) (r : Fields) : Call State := do
  let blocks ← touched (useCounting.retain s.blocks r.p)
  pure { s with blocks := blocks }

/-- `buffer::_release`. -/
def release (s : State) (i : Nat) : Call State := do
  let this ← s.get i
  let blocks ← touched (useCounting.release s.blocks this.base.p)
  pure ({ s with blocks := blocks }.put i (some { this with base := .zero }))

/-- `buffer::_reset_unsafe` of an empty buffer. -/
def resetUnsafe (s : State) (n : Nat) (served : Bool) : Call (State × Fields) :=
  if n = 0 then .ok (s, .zero)
  else if n < sizeT (controlSize + n) ∧ served then
    .ok ({ s with blocks := s.blocks ++ [⟨1, ⟨true, n, 0, 0⟩⟩] },
      ⟨some ⟨.counted s.blocks.length, 0⟩, n, some s.blocks.length⟩)
  else .error .badAlloc

/-- `string::_reset_unsafe` of an empty string, with a terminator behind it. -/
def stringResetUnsafe (s : State) (n : Nat) (served : Bool) : Call (State × Fields) :=
  if n = 0 then .ok (s, .zero)
  else do
    let (s, str) ← s.resetUnsafe (sizeT (n + 1)) served
    pure (s, if str.size = 0 then str else { str with size := sizeT n })

/-- `buffer::copy`. -/
def copy (s : State) (this : Fields) (n : Nat) (served : Bool) : Call (State × Fields) :=
  s.resetUnsafe (if n = 0 then this.size else n) served

/-- `string::_copy` to a string that holds no block; the terminator is written in any case. -/
def stringCopy (s : State) (this : Fields) (n : Nat) (served : Bool) : Call (State × Fields) := do
  let n := if n = 0 then this.size else n
  let (s, str) ← s.stringResetUnsafe n served
  match str.data with
  | none => throw .nullAccess
  | some _ => pure (s, str)

end State

/-- `buffer::slice`, before it retains. -/
def Fields.slice (this : Fields) (first last : Nat) : Fields :=
  match this.data with
  | none => .zero
  | some ptr =>
    let cbeg := min first this.size
    let cend := min last this.size
    if cbeg < cend then ⟨some { ptr with off := ptr.off + cbeg }, cend - cbeg, this.p⟩ else .zero

namespace State

def view (s : State) : View → Call Fields
  | .memory data size => .ok (weak data size)
  | .handle j => do
    let other ← s.get j
    pure ⟨other.base.data, other.base.size, none⟩

/-- What a derived class takes over from `other`, when `buffer` is done with it. -/
def taken (kind passed : Kind) (other : Handle) : Derived :=
  match kind with
  | .buffer => .buffer
  | .mutable => .mutable (if passed = .mutable then other.derived.capacity else other.base.size)
  | .string => .string
  | .hashed => .hashed (if passed = .hashed then other.derived.hash else 0)

/-- A `string` takes strings, and the memory of a `mutable_buffer` that it is constructed from. -/
def Accepted (kind passed : Kind) (fromMutable : Bool) : Prop :=
  kind = .string → passed = .string ∨ passed = .mutable ∧ fromMutable

instance (kind passed : Kind) (fromMutable : Bool) : Decidable (Accepted kind passed fromMutable) :=
  inferInstanceAs (Decidable (_ → _))

/-- The copy constructors. -/
def constructCopied (s : State) (kind passed : Kind) (j : Nat) : Call (State × Handle) := do
  let other ← s.getAs passed j
  need .absent (Accepted kind passed false)
  let s ← s.retain other.base
  pure (s, ⟨other.base, taken kind passed other⟩)

/-- The move constructors; a `hashed_buffer` has none. -/
def constructMoved (s : State) (kind passed : Kind) (j : Nat) : Call (State × Handle) :=
  if kind = .hashed then s.constructCopied kind passed j
  else do
    let other ← s.getAs passed j
    need .absent (Accepted kind passed true)
    let moved : Handle := { other with base := .zero }
    pure (s.put j (some moved), ⟨other.base, taken kind passed moved⟩)

def construct (s : State) : Source → Call (State × Handle)
  | .empty kind => .ok (s, ⟨.zero, taken kind .buffer ⟨.zero, .buffer⟩⟩)
  | .sized .mutable n served => do
    let (s, r) ← s.resetUnsafe n served
    pure (s, ⟨{ r with size := 0 }, .mutable r.size⟩)
  | .sized .string n served => do
    let (s, str) ← s.stringResetUnsafe n served
    pure (s, ⟨str, .string⟩)
  | .sized .buffer n served => do
    let (s, r) ← s.resetUnsafe n served
    pure (s, ⟨r, .buffer⟩)
  | .sized .hashed _ _ => .error .absent
  | .copied kind passed j => s.constructCopied kind passed j
  | .moved kind passed j => s.constructMoved kind passed j
  | .memory .mutable _ _ _ => .error .absent
  | .memory kind view true served => do
    let other ← s.view view
    let (s, r) ← s.copy (weak other.data other.size) 0 served
    pure (s, ⟨r, taken kind .buffer ⟨r, .buffer⟩⟩)
  | .memory .hashed _ false _ => .error .absent
  | .memory kind view false _ => do
    let other ← s.view view
    pure (s, ⟨weak other.data other.size, taken kind .buffer ⟨other, .buffer⟩⟩)
  | .literal .mutable _ _ _ => .error .absent
  | .literal kind data size hash =>
    .ok (s, ⟨weak data size, taken kind .hashed ⟨.zero, .hashed hash⟩⟩)
  | .stringOfView view served => do
    let other ← s.view view
    let (s, str) ← s.stringResetUnsafe other.size served
    -- the bytes are copied from `other` whether it has any or not
    need .nullAccess (str.size = 0 ∨ other.data.isSome)
    pure (s, ⟨str, .string⟩)
  | .stringOfMemory data size served => do
    let (s, str) ← s.stringCopy (weak data size) 0 served
    pure (s, ⟨str, .string⟩)
  | .deleter kind isNull size served => do
    need .absent (kind = .buffer ∨ kind = .string)
    need .badAlloc (served = true)
    let b := s.blocks.length
    pure ({ s with blocks := s.blocks ++ [⟨1, ⟨false, size, 0, 0⟩⟩] },
      ⟨⟨if isNull then none else some ⟨.counted b, 0⟩, size, some b⟩,
        taken kind .buffer ⟨.zero, .buffer⟩⟩)
  | .copy j n served => do
    let this ← s.get j
    let (s, r) ← s.copy this.base n served
    pure (s, ⟨r, .buffer⟩)
  | .stringCopy j n served => do
    let this ← s.getAs .string j
    let (s, str) ← s.stringCopy this.base n served
    pure (s, ⟨str, .string⟩)
  | .slice j first last => do
    let this ← s.get j
    let r := this.base.slice first last
    let s ← s.retain r
    pure (s, ⟨r, .buffer⟩)
  | .mutableSlice j first last => do
    let this ← s.getAs .mutable j
    let r := this.base.slice first last
    let s ← s.retain r
    let skipped := min first this.base.size
    pure (s, ⟨r, .mutable (if r.data.isSome then subSizeT this.derived.capacity skipped else 0)⟩)

/-- `buffer::swap(buffer&)`. -/
def swap (s : State) (i j : Nat) : Call State := do
  let this ← s.get i
  let other ← s.get j
  let s := s.put i (some { this with base := other.base })
  let other ← s.get j
  pure (s.put j (some { other with base := this.base }))

/-- `buffer::operator=(const buffer&)`. -/
def assign (s : State) (i j : Nat) : Call State := do
  let s ← s.release i
  let other ← s.get j
  let s ← s.retain other.base
  let this ← s.get i
  pure (s.put i (some { this with base := other.base }))

/-- `buffer::operator=(buffer&&)`. -/
def assignMoved (s : State) (i j : Nat) : Call State := do
  let s ← s.release i
  s.swap i j

/-- `buffer::operator=(const buffer_view&)`. -/
def assignView (s : State) (i : Nat) (view : View) : Call State := do
  let s ← s.release i
  let other ← s.view view
  let this ← s.get i
  pure (s.put i (some { this with base := other }))

def setDerived (s : State) (i : Nat) (derived : Derived) : Call State := do
  let this ← s.get i
  pure (s.put i (some { this with derived := derived }))

/-- What the assignments of `mutable_buffer` and `hashed_buffer` do after that of `buffer`. -/
def takeOver (s : State) (this : Kind) (i : Nat) (passed : Kind) (j : Nat) : Call State :=
  match this with
  | .buffer | .string => .ok s
  | .mutable | .hashed => do
    let other ← s.get j
    s.setDerived i (taken this passed other)

/-- The copy assignments. -/
def copyAssign (s : State) (this : Kind) (i : Nat) (passed : Kind) (j : Nat) : Call State := do
  let _ ← s.getAs this i
  let _ ← s.getAs passed j
  need .absent (Accepted this passed false)
  let s ← s.assign i j
  s.takeOver this i passed j

/-- The move assignments; a `hashed_buffer` has none. -/
def moveAssign (s : State) (this : Kind) (i : Nat) (passed : Kind) (j : Nat) : Call State :=
  if this = .hashed then s.copyAssign this i passed j
  else do
    let _ ← s.getAs this i
    let _ ← s.getAs passed j
    need .absent (Accepted this passed false)
    let s ← s.assignMoved i j
    s.takeOver this i passed j

def call (s : State) : Op → Call State
  | .construct i source =>
    match s.objects[i]? with
    | some none => do
      let (s, h) ← s.construct source
      pure (s.put i (some h))
    | _ => .error .absent
  | .copyAssign this i passed j => s.copyAssign this i passed j
  | .moveAssign this i passed j => s.moveAssign this i passed j
  | .assignView this i view hash => do
    let _ ← s.getAs this i
    match this with
    | .buffer => s.assignView i view
    | .hashed => do
      let s ← s.assignView i view
      s.setDerived i (.hashed hash)
    | .mutable | .string => throw .absent
  | .swap i passed j => do
    let _ ← s.getAs passed j
    let s ← s.swap i j
    match passed with
    | .mutable => do
      let other ← s.get j
      s.setDerived j (.mutable other.base.size)
    | .buffer | .string | .hashed => pure s
  | .reset this i => do
    let _ ← s.getAs this i
    let s ← s.release i
    if this = .mutable then s.setDerived i (.mutable 0) else pure s
  | .resetString i n served => do
    let _ ← s.getAs .string i
    let s ← s.release i
    match s.stringResetUnsafe n served with
    | .ok (s, str) => pure (s.put i (some ⟨str, .string⟩))
    -- what `reset` throws, it throws when the old block is released
    | .error .badAlloc => pure s
    | .error stop => throw stop
  | .destroy i => do
    let s ← s.release i
    pure (s.put i none)

end State

/-- A program that writes or reads through a null pointer is not continued. -/
inductive Program where
  | running (s : State)
  | crashed
  deriving DecidableEq

/-- `none` is a call that touches a control block which was freed. A call that throws leaves the
handles as they are, but for `string::reset`; where it is `noexcept`, it terminates the program. -/
def Program.step : Program → Op → Option Program
  | .crashed, _ => some .crashed
  | .running s, op =>
    match s.call op with
    | .ok t => some (.running t)
    | .error .freed => none
    | .error .nullAccess => some .crashed
    | .error .badAlloc | .error .absent => some (.running s)

end Libnodecc.Buffer.Counting
