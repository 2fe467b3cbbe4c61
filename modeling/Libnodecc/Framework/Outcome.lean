import Mathlib.Logic.Basic

namespace Libnodecc

universe u v

variable {ε : Type u} {α β : Type v}

/-- A call returns something in `Q`, or stops for a reason in `E`. -/
def Ends (E : ε → Prop) (Q : α → Prop) : Except ε α → Prop
  | .ok a => Q a
  | .error e => E e

namespace Ends

variable {E : ε → Prop} {P Q : α → Prop}

theorem throw {e : ε} (h : E e) : Ends E Q (.error e) := h

theorem bind {R : β → Prop} {x : Except ε α} {f : α → Except ε β} (hx : Ends E P x)
    (hf : ∀ a, P a → Ends E R (f a)) : Ends E R (x >>= f) := by
  cases x with
  | error e => exact hx
  | ok a => exact hf a hx

end Ends

end Libnodecc
