import Mathlib.Data.List.Basic

namespace Libnodecc

variable {α : Type*} [DecidableEq α]

theorem getElem?_concat_cases {β : Type*} {l : List β} {x y : β} {i : Nat}
    (h : (l ++ [x])[i]? = some y) : i < l.length ∧ l[i]? = some y ∨ i = l.length ∧ x = y := by
  by_cases hlt : i < l.length
  · rw [List.getElem?_append_left hlt] at h
    exact .inl ⟨hlt, h⟩
  · have hlen := (List.getElem?_eq_some_iff.mp h).1
    rw [List.length_append, List.length_singleton] at hlen
    obtain rfl : i = l.length := by omega
    rw [List.getElem?_concat_length] at h
    exact .inr ⟨rfl, Option.some.inj h⟩

/-- How many of the slots hold `a`. -/
def holders (slots : List (Option α)) (a : α) : Nat := slots.count (some a)

theorem holders_push (slots : List (Option α)) (p : Option α) (a : α) :
    holders (slots ++ [p]) a = holders slots a + if p = some a then 1 else 0 := by
  simp [holders, List.count_append, List.count_singleton]

theorem holders_cons (p : Option α) (slots : List (Option α)) (a : α) :
    holders (p :: slots) a = holders slots a + if p = some a then 1 else 0 := by
  simp [holders, List.count_cons]

/-- What a slot gets, and what it had before. -/
theorem holders_set (slots : List (Option α)) (i : Nat) (p q : Option α) (a : α)
    (hi : slots[i]? = some p) :
    holders (slots.set i q) a + (if p = some a then 1 else 0) =
      holders slots a + if q = some a then 1 else 0 := by
  obtain ⟨hlt, hget⟩ := List.getElem?_eq_some_iff.mp hi
  have hset := List.count_set (a := q) (b := some a) hlt
  rw [hget] at hset
  have hpos : p = some a → 0 < holders slots a := by
    rintro rfl
    exact List.count_pos_iff.mpr (List.mem_of_getElem? hi)
  simp only [beq_iff_eq] at hset
  change (slots.set i q).count (some a) + _ = holders slots a + _
  rw [hset]
  by_cases hp : p = some a
  · have h := hpos hp
    simp only [holders, hp, if_true] at h ⊢
    omega
  · simp [holders, hp]

theorem holders_set_none (slots : List (Option α)) (i : Nat) (p : Option α) (a : α)
    (hi : slots[i]? = some p) :
    holders (slots.set i none) a + (if p = some a then 1 else 0) = holders slots a := by
  have h := holders_set slots i p none a hi
  simp only [reduceCtorEq, if_false, Nat.add_zero] at h
  exact h

theorem holders_pos (slots : List (Option α)) (i : Nat) (a : α) (hi : slots[i]? = some (some a)) :
    0 < holders slots a :=
  List.count_pos_iff.mpr (List.mem_of_getElem? hi)

end Libnodecc
