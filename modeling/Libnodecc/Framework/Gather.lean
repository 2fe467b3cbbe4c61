import Mathlib.Algebra.BigOperators.Group.List.Basic
import Mathlib.Algebra.GroupWithZero.Nat
import Mathlib.Data.List.Range

namespace Libnodecc.Gather

variable {α β : Type*}

/-- Of pieces of the given lengths, how many lie in the first `n` elements as a whole, and how far
these reach into the next one. -/
def split : List Nat → Nat → Nat × Nat
  | [], n => (0, n)
  | len :: lens, n =>
    if n < len then (0, n)
    else
      let (i, rest) := split lens (n - len)
      (i + 1, rest)

theorem split_cons_lt {len n : Nat} (lens : List Nat) (h : n < len) :
    split (len :: lens) n = (0, n) := by
  rw [split, if_pos h]

theorem split_cons_le {len n : Nat} (lens : List Nat) (h : len ≤ n) :
    split (len :: lens) n = ((split lens (n - len)).1 + 1, (split lens (n - len)).2) := by
  rw [split, if_neg (Nat.not_lt.mpr h)]

theorem split_lt (lens : List Nat) (n : Nat) (h : n < lens.sum) :
    ∃ len, lens[(split lens n).1]? = some len ∧ (split lens n).2 < len := by
  induction lens generalizing n with
  | nil => cases h
  | cons len lens ih =>
    by_cases hlt : n < len
    · rw [split_cons_lt lens hlt]
      exact ⟨len, rfl, hlt⟩
    · have hle : len ≤ n := Nat.not_lt.mp hlt
      rw [List.sum_cons] at h
      rw [split_cons_le lens hle, List.getElem?_cons_succ]
      exact ih (n - len) (by omega)

theorem split_all (lens : List Nat) (n : Nat) (h : lens.sum ≤ n) :
    split lens n = (lens.length, n - lens.sum) := by
  induction lens generalizing n with
  | nil => rfl
  | cons len lens ih =>
    rw [List.sum_cons] at h
    rw [split_cons_le lens (by omega), ih (n - len) (by omega), List.sum_cons, List.length_cons,
      Nat.sub_sub]

/-- The pieces that lie in the elements are those that end in them. -/
theorem split_fst (lens : List Nat) (n : Nat) : (split lens n).1 =
    (List.range lens.length).countP fun i => (lens.take (i + 1)).sum ≤ n := by
  induction lens generalizing n with
  | nil => rfl
  | cons len lens ih =>
    by_cases h : n < len
    · rw [split_cons_lt lens h]
      refine (List.countP_eq_zero.mpr fun i _ => ?_).symm
      rw [List.take_succ_cons, List.sum_cons, decide_eq_true_iff]
      omega
    · have hle : len ≤ n := Nat.not_lt.mp h
      rw [split_cons_le lens hle, ih, List.length_cons, List.range_succ_eq_map, List.countP_cons,
        List.countP_map]
      have hfirst : decide ((List.take (0 + 1) (len :: lens)).sum ≤ n) = true := by simpa using hle
      rw [if_pos hfirst]
      refine congrArg (· + 1) (List.countP_congr fun i _ => ?_)
      have hnext : (lens.take (i + 1)).sum ≤ n - len ↔ len + (lens.take (i + 1)).sum ≤ n := by omega
      exact decide_eq_true_iff.trans (hnext.trans decide_eq_true_iff.symm)

theorem drop_flatMap (f : β → List α) (pieces : List β) (n : Nat) :
    (pieces.flatMap f).drop n =
      ((pieces.drop (split (pieces.map fun b => (f b).length) n).1).flatMap f).drop
        (split (pieces.map fun b => (f b).length) n).2 := by
  induction pieces generalizing n with
  | nil => simp [split]
  | cons b pieces ih =>
    rw [List.map_cons]
    by_cases h : n < (f b).length
    · rw [split_cons_lt _ h, List.drop_zero]
    · have hle : (f b).length ≤ n := Nat.not_lt.mp h
      rw [split_cons_le _ hle, List.flatMap_cons, List.drop_append, List.drop_eq_nil_of_le hle,
        List.nil_append, ih, List.drop_succ_cons]

theorem flatMap_take (f : β → List α) (pieces : List β) (n : Nat) :
    (pieces.take n).flatMap f = pieces.flatMap f ↔ ∀ b ∈ pieces.drop n, f b = [] := by
  have hsplit : pieces.flatMap f = (pieces.take n).flatMap f ++ (pieces.drop n).flatMap f := by
    rw [← List.flatMap_append, List.take_append_drop]
  rw [hsplit, List.self_eq_append_right]
  exact List.flatMap_eq_nil_iff

end Libnodecc.Gather
