import Mathlib.Algebra.GroupWithZero.Nat

namespace Libnodecc.Object

/-- The bit fields of `object`; `_use_count` has 31 bits. -/
structure Counter where
  useCount : Nat
  isDestroyed : Bool
  deriving DecidableEq

def useCountLimit : Nat := 2^31

def Counter.fresh : Counter := ⟨1, false⟩

/-- `object::retain`. -/
def Counter.retain (c : Counter) : Counter :=
  { c with useCount := (c.useCount + 1) % useCountLimit }

/-- What `release` does behind its decrement: return, call `_destroy()`, or finalise the object,
that is delete it or release its responsible object. -/
inductive Released where
  | referenced
  | destroys
  | finalises
  deriving DecidableEq

/-- `object::release` up to that point; `none` is its failed assertion. -/
def Counter.release (c : Counter) : Option (Counter × Released) :=
  if c.useCount = 0 then none
  else if c.useCount - 1 ≠ 0 then some ({ c with useCount := c.useCount - 1 }, .referenced)
  else if c.isDestroyed then some ({ c with useCount := 0 }, .finalises)
  else some (⟨0, true⟩, .destroys)

theorem Counter.retain_useCount (c : Counter) (h : c.useCount + 1 < useCountLimit) :
    c.retain.useCount = c.useCount + 1 := Nat.mod_eq_of_lt h

theorem Counter.retain_of_lt (c : Counter) (h : c.useCount + 1 < useCountLimit) :
    c.retain = { c with useCount := c.useCount + 1 } := by
  rw [Counter.retain, Nat.mod_eq_of_lt h]

theorem Counter.release_referenced (c : Counter) (h : 1 < c.useCount) :
    c.release = some ({ c with useCount := c.useCount - 1 }, .referenced) := by
  rw [Counter.release, if_neg (by omega), if_pos (by omega)]

theorem Counter.release_last (c : Counter) (h : c.useCount = 1) :
    c.release = some (⟨0, true⟩, if c.isDestroyed then .finalises else .destroys) := by
  rw [Counter.release, if_neg (by omega), if_neg (by omega)]
  cases hd : c.isDestroyed <;> simp

end Libnodecc.Object
