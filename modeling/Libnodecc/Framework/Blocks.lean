import Mathlib.Data.List.Basic

namespace Libnodecc

section
variable {α σ : Type*} (n : Nat) (f : σ → List α → σ) (s : σ)

/-- Folds over the whole blocks of `n` elements. -/
def foldBlocks (xs : List α) : σ :=
  (List.range (xs.length / n)).foldl (fun s i => f s ((xs.drop (n * i)).take n)) s

theorem foldl_range_congr (k : Nat) (g h : σ → Nat → σ) (hgh : ∀ i < k, ∀ s, g s i = h s i) :
    (List.range k).foldl g s = (List.range k).foldl h s := by
  induction k with
  | zero => rfl
  | succ k ih =>
    rw [List.range_succ, List.foldl_append, List.foldl_append, ih fun i hi => hgh i (by omega)]
    exact hgh k (by omega) _

theorem foldBlocks_rest (xs rest : List α) (h : (xs ++ rest).length / n = xs.length / n) :
    foldBlocks n f s (xs ++ rest) = foldBlocks n f s xs := by
  rw [foldBlocks, h]
  apply foldl_range_congr
  intro i hi t
  have hle : n * (i + 1) ≤ xs.length := by
    calc n * (i + 1) ≤ n * (xs.length / n) := Nat.mul_le_mul_left n hi
      _ ≤ xs.length := Nat.mul_div_le _ _
  rw [Nat.mul_succ] at hle
  rw [List.drop_append_of_le_length (by omega), List.take_append_of_le_length]
  rw [List.length_drop]
  omega

/-- A block more. -/
theorem foldBlocks_block (xs block : List α) (hn : 0 < n) (hxs : n ∣ xs.length)
    (hblock : block.length = n) :
    foldBlocks n f s (xs ++ block) = f (foldBlocks n f s xs) block := by
  obtain ⟨k, hk⟩ := hxs
  have hlen : (xs ++ block).length / n = k + 1 := by
    rw [List.length_append, hk, hblock, Nat.mul_add_div hn, Nat.div_self hn]
  have hlen' : xs.length / n = k := by
    rw [hk, Nat.mul_div_cancel_left k hn]
  have hlast : ((xs ++ block).drop (n * k)).take n = block := by
    rw [← hk, List.drop_left, ← hblock, List.take_length]
  rw [foldBlocks, hlen, List.range_succ, List.foldl_append, List.foldl_cons, List.foldl_nil, hlast]
  congr 1
  rw [foldBlocks, hlen']
  apply foldl_range_congr
  intro i hi t
  have hle : n * (i + 1) ≤ n * k := Nat.mul_le_mul_left n hi
  rw [Nat.mul_succ] at hle
  rw [List.drop_append_of_le_length (by omega), List.take_append_of_le_length]
  rw [List.length_drop]
  omega

/-- A state that has folded over the whole blocks, and the first `i` elements of `block`, which are
those behind them. -/
structure Absorbed (xs : List α) (t : σ) (block : List α) (i : Nat) : Prop where
  state : t = foldBlocks n f s xs
  length : block.length = n
  index : i = xs.length % n
  pending : block.take i = xs.drop (xs.length - i)

section
variable {n f s} {xs block : List α} {t : σ} {i : Nat}

theorem absorbed_nil (h : block.length = n) : Absorbed n f s [] s block 0 :=
  ⟨by simp [foldBlocks], h, by simp, by simp⟩

theorem Absorbed.set_take (h : Absorbed n f s xs t block i) (hi : i < n) (x : α) :
    (block.set i x).take (i + 1) = (xs ++ [x]).drop (xs.length - i) := by
  have hle : i ≤ xs.length := by
    rw [h.index]
    exact Nat.mod_le _ _
  have hlen : i < (block.set i x).length := by
    rw [List.length_set, h.length]
    exact hi
  rw [List.take_succ_eq_append_getElem hlen, List.getElem_set_self,
    List.take_set_of_le (Nat.le_refl i), h.pending, List.drop_append_of_le_length (by omega)]

/-- An element that does not complete the block. -/
theorem Absorbed.push (h : Absorbed n f s xs t block i) (hi : i + 1 < n) (x : α) :
    Absorbed n f s (xs ++ [x]) t (block.set i x) (i + 1) := by
  have hdiv := Nat.div_add_mod xs.length n
  have hindex := h.index
  have hsum : xs.length + 1 = n * (xs.length / n) + (i + 1) := by omega
  have hmod : (xs.length + 1) % n = i + 1 := by
    rw [hsum, Nat.mul_add_mod, Nat.mod_eq_of_lt hi]
  have hquot : (xs.length + 1) / n = xs.length / n := by
    conv_lhs => rw [hsum]
    rw [Nat.mul_add_div (by omega), Nat.div_eq_of_lt hi, Nat.add_zero]
  constructor
  · rw [foldBlocks_rest n f s xs [x] (by rw [List.length_append]; exact hquot)]
    exact h.state
  · rw [List.length_set, h.length]
  · rw [List.length_append]
    exact hmod.symm
  · rw [h.set_take (by omega) x, List.length_append]
    congr 1
    change xs.length - i = xs.length + 1 - (i + 1)
    omega

/-- An element that completes the block. -/
theorem Absorbed.full (h : Absorbed n f s xs t block i) (hi : i + 1 = n) (x : α) :
    Absorbed n f s (xs ++ [x]) (f t (block.set i x)) (block.set i x) 0 := by
  have hdiv := Nat.div_add_mod xs.length n
  have hindex := h.index
  have hset : block.set i x = xs.drop (xs.length - i) ++ [x] := by
    have htake := h.set_take (by omega) x
    rw [List.take_of_length_le (by rw [List.length_set, h.length]; omega)] at htake
    rw [htake, List.drop_append_of_le_length (by omega)]
  have hfront : n ∣ (xs.take (xs.length - i)).length := by
    rw [List.length_take]
    exact ⟨xs.length / n, by omega⟩
  have hxs : xs ++ [x] = xs.take (xs.length - i) ++ block.set i x := by
    rw [hset, ← List.append_assoc, List.take_append_drop]
  have hstate : foldBlocks n f s xs = foldBlocks n f s (xs.take (xs.length - i)) := by
    have hrest := foldBlocks_rest n f s (xs.take (xs.length - i)) (xs.drop (xs.length - i))
    rw [List.take_append_drop] at hrest
    apply hrest
    have hlen : (xs.take (xs.length - i)).length = n * (xs.length / n) := by
      rw [List.length_take]
      omega
    rw [hlen, Nat.mul_div_cancel_left _ (by omega)]
  constructor
  · rw [hxs, foldBlocks_block n f s _ _ (by omega) hfront (by rw [List.length_set, h.length]),
      ← hstate, h.state]
  · rw [List.length_set, h.length]
  · have hlen : (xs ++ [x]).length = n * (xs.length / n + 1) := by
      rw [List.length_append, Nat.mul_succ]
      change xs.length + 1 = _
      omega
    rw [hlen, Nat.mul_mod_right]
  · simp

end

end

end Libnodecc
