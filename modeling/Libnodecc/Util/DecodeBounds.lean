import Libnodecc.Util.DecodeResult

namespace Libnodecc.Util.Base64

open Buffer Decoder

/-- How many sextets each of the first `j` groups has. -/
def groupCounts (bs : Bytes) (j : Nat) : List Nat :=
  (List.range j).map fun i => (taken (group bs i)).length

/-- The counts of sextets in groups for which close to three bytes a group are written: `less` bytes
less than that, and with `pending` sextets in the register behind them. -/
inductive Shape : List Nat → Nat → Nat → Prop where
  | full (a : Nat) : Shape (List.replicate a 4) 0 0
  | three (a : Nat) : Shape (List.replicate a 4 ++ [3]) 1 1
  | threes (a b : Nat) : Shape (List.replicate a 4 ++ [3, 3] ++ List.replicate b 4) 1 0
  | two (a : Nat) : Shape (List.replicate a 4 ++ [2]) 2 1
  | threeTwo (a : Nat) : Shape (List.replicate a 4 ++ [3, 2]) 2 1
  | threesThree (a b : Nat) : Shape (List.replicate a 4 ++ [3, 3] ++ List.replicate b 4 ++ [3]) 2 1

/-- The sextets behind the last whole group write beyond the capacity of the result. -/
def Overflows (buffer : View) : Prop :=
  ∃ less pending, Shape (groupCounts buffer.bytes (buffer.size / 4)) less pending ∧
    max 16 (3 * (buffer.size / 4)) + less <
      3 * (buffer.size / 4) + (pending + (taken (rest buffer.bytes)).length - 1)

/-- The bytes written and the count in the register, with `k` sextets more. -/
def tally (p : Nat × Nat) (k : Nat) : Nat × Nat :=
  let ri := (p.2 + k) % 2^8
  (p.1 + (if 2 ≤ ri ∧ ri ≤ 4 then ri - 1 else 0), Stage.kept ri)

theorem stage_tally (bs : Bytes) (j : Nat) :
    (groupCounts bs j).foldl tally (0, 0) = ((stage bs j).bytes.length, (stage bs j).ri) := by
  induction j with
  | zero => rfl
  | succ j ih =>
    have hri := Stage.take_ri _ (taken (group bs j)) (stage_bounds bs j).1
    have hcounts : groupCounts bs (j + 1) = groupCounts bs j ++ [(taken (group bs j)).length] := by
      simp [groupCounts, List.range_succ]
    rw [hcounts, List.foldl_append, ih]
    simp only [List.foldl_cons, List.foldl_nil, tally, stage, Stage.flush, List.length_append,
      Stage.take_bytes, registerBytes_length, hri]

theorem tally_full (n a : Nat) (ks : List Nat) :
    (List.replicate a 4 ++ ks).foldl tally (n, 0) = ks.foldl tally (n + 3 * a, 0) := by
  induction a generalizing n with
  | zero => rfl
  | succ a ih =>
    have hstep : tally (n, 0) 4 = (n + 3, 0) := rfl
    rw [List.replicate_succ, List.cons_append, List.foldl_cons, hstep, ih]
    congr 2
    omega

theorem tally_threes (a b : Nat) (ks : List Nat) :
    (List.replicate a 4 ++ [3, 3] ++ List.replicate b 4 ++ ks).foldl tally (0, 0) =
      ks.foldl tally (3 * a + 5 + 3 * b, 0) := by
  rw [List.append_assoc, List.append_assoc]
  calc (List.replicate a 4 ++ ([3, 3] ++ (List.replicate b 4 ++ ks))).foldl tally (0, 0)
      = ([3, 3] ++ (List.replicate b 4 ++ ks)).foldl tally (0 + 3 * a, 0) := tally_full 0 a _
    _ = (List.replicate b 4 ++ ks).foldl tally (0 + 3 * a + 5, 0) := rfl
    _ = ks.foldl tally (0 + 3 * a + 5 + 3 * b, 0) := tally_full _ b ks
    _ = ks.foldl tally (3 * a + 5 + 3 * b, 0) := by rw [Nat.zero_add]

/-- The counts of a shape give the bytes it is short of. -/
theorem shape_tally {ks : List Nat} {less pending : Nat} (h : Shape ks less pending) :
    ks.foldl tally (0, 0) = (3 * ks.length - less, pending) ∧ less ≤ 3 * ks.length ∧
      pending ≤ 1 := by
  cases h with
  | full a =>
    have h := tally_full 0 a []
    rw [List.append_nil] at h
    rw [h]
    simp
  | three a =>
    have h : (List.replicate a 4 ++ [3]).foldl tally (0, 0) = (0 + 3 * a + 2, 1) :=
      tally_full 0 a [3]
    rw [h]
    simp
    omega
  | threes a b =>
    have h := tally_threes a b []
    rw [List.append_nil] at h
    rw [h]
    simp
    omega
  | two a =>
    have h : (List.replicate a 4 ++ [2]).foldl tally (0, 0) = (0 + 3 * a + 1, 1) :=
      tally_full 0 a [2]
    rw [h]
    simp
    omega
  | threeTwo a =>
    have h : (List.replicate a 4 ++ [3, 2]).foldl tally (0, 0) = (0 + 3 * a + 4, 1) :=
      tally_full 0 a [3, 2]
    rw [h]
    simp
    omega
  | threesThree a b =>
    have h : (List.replicate a 4 ++ [3, 3] ++ List.replicate b 4 ++ [3]).foldl tally (0, 0) =
        (3 * a + 5 + 3 * b + 2, 1) := tally_threes a b [3]
    rw [h]
    simp
    omega

theorem tally_le (p : Nat × Nat) (k : Nat) : (tally p k).1 ≤ p.1 + 3 := by
  simp only [tally]
  split_ifs <;> omega

/-- Where no sextet is pending, a group of `k` gives `k - 1` bytes, if there are any. -/
theorem tally_zero (n k : Nat) (hk : k ≤ 4) :
    tally (n, 0) k = (n + (k - 1), if k = 4 then 0 else if k = 0 then 0 else 1) := by
  obtain rfl | rfl | rfl | rfl | rfl : k = 0 ∨ k = 1 ∨ k = 2 ∨ k = 3 ∨ k = 4 := by omega
  all_goals rfl

theorem tally_one (n k : Nat) (hk : k ≤ 4) :
    tally (n, 1) k = (n + if k = 4 then 0 else k, if k = 4 then 5 else if k = 3 then 0 else 1) := by
  obtain rfl | rfl | rfl | rfl | rfl : k = 0 ∨ k = 1 ∨ k = 2 ∨ k = 3 ∨ k = 4 := by omega
  all_goals rfl

theorem tally_three (n : Nat) {k : Nat} (hk : k ≤ 4) (hsmall : n + 2 + 1 ≤ (tally (n, 1) k).1) :
    (tally (n, 1) k).1 = n + 2 + 1 ∧ (tally (n, 1) k).2 = 0 := by
  rw [tally_one n k hk] at hsmall ⊢
  obtain rfl : k = 3 := by
    simp only at hsmall
    split_ifs at hsmall <;> omega
  exact ⟨rfl, rfl⟩

/-- One group more, where at most two bytes are missing behind it. -/
theorem Shape.snoc {ks : List Nat} {less pending k : Nat} (h : Shape ks less pending) (hk : k ≤ 4)
    (n : Nat) (hsmall : n + less + 1 ≤ (tally (n, pending) k).1) :
    (∃ less', Shape (ks ++ [k]) less' (tally (n, pending) k).2 ∧
        (tally (n, pending) k).1 + less' = n + less + 3) ∨
      (tally (n, pending) k).1 = n + less + 1 ∧ (tally (n, pending) k).2 = 0 := by
  cases h with
  | full a =>
    rw [tally_zero n k hk] at hsmall ⊢
    obtain rfl | rfl | rfl : k = 2 ∨ k = 3 ∨ k = 4 := by
      simp only at hsmall
      omega
    · exact Or.inl ⟨2, Shape.two a, rfl⟩
    · exact Or.inl ⟨1, Shape.three a, rfl⟩
    · have hfull := Shape.full (a + 1)
      rw [List.replicate_succ'] at hfull
      exact Or.inl ⟨0, hfull, rfl⟩
  | three a =>
    rw [tally_one n k hk] at hsmall ⊢
    obtain rfl | rfl : k = 2 ∨ k = 3 := by
      simp only at hsmall
      split_ifs at hsmall <;> omega
    · have htwo : Shape (List.replicate a 4 ++ [3] ++ [2]) 2 1 := by
        rw [List.append_assoc]
        exact Shape.threeTwo a
      exact Or.inl ⟨2, htwo, rfl⟩
    · have hthrees := Shape.threes a 0
      rw [List.replicate_zero, List.append_nil, ← List.singleton_append,
        ← List.append_assoc] at hthrees
      exact Or.inl ⟨1, hthrees, rfl⟩
  | threes a b =>
    rw [tally_zero n k hk] at hsmall ⊢
    obtain rfl | rfl : k = 3 ∨ k = 4 := by
      simp only at hsmall
      omega
    · exact Or.inl ⟨2, Shape.threesThree a b, rfl⟩
    · have hfull := Shape.threes a (b + 1)
      rw [List.replicate_succ', ← List.append_assoc] at hfull
      exact Or.inl ⟨1, hfull, rfl⟩
  | two a => exact Or.inr (tally_three n hk hsmall)
  | threeTwo a => exact Or.inr (tally_three n hk hsmall)
  | threesThree a b => exact Or.inr (tally_three n hk hsmall)

/-- At most two bytes less than three a group are written for these counts only. -/
theorem shape_of_tally (ks : List Nat) (hks : ∀ k ∈ ks, k ≤ 4) :
    (ks.foldl tally (0, 0)).1 ≤ 3 * ks.length ∧
      (3 * ks.length ≤ (ks.foldl tally (0, 0)).1 + 2 →
        (∃ less, Shape ks less (ks.foldl tally (0, 0)).2 ∧
          (ks.foldl tally (0, 0)).1 + less = 3 * ks.length) ∨
        (ks.foldl tally (0, 0)).1 + 2 = 3 * ks.length ∧ (ks.foldl tally (0, 0)).2 = 0) := by
  induction ks using List.reverseRecOn with
  | nil => exact ⟨Nat.zero_le _, fun _ => Or.inl ⟨0, Shape.full 0, rfl⟩⟩
  | append_singleton ks k ih =>
    obtain ⟨hle, hshape⟩ := ih fun k hk => hks k (by simp [hk])
    have hk : k ≤ 4 := hks k (by simp)
    rw [List.foldl_append, List.foldl_cons, List.foldl_nil, List.length_append,
      List.length_singleton]
    generalize ks.foldl tally (0, 0) = p at hle hshape
    obtain ⟨n, pending⟩ := p
    have hstep := tally_le (n, pending) k
    simp only at hle hshape hstep
    refine ⟨by omega, fun hsmall => ?_⟩
    rcases hshape (by omega) with ⟨less, hs, hless⟩ | ⟨hless, hpending⟩
    · rcases hs.snoc hk n (by omega) with ⟨less', hs', hless'⟩ | ⟨hless', hpending'⟩
      · exact Or.inl ⟨less', hs', by omega⟩
      · exact Or.inr ⟨by omega, hpending'⟩
    · subst hpending
      rw [tally_zero n k hk] at hsmall ⊢
      simp only at hsmall ⊢
      obtain rfl : k = 4 := by omega
      exact Or.inr ⟨by omega, rfl⟩

theorem taken_length_le (bs : Bytes) : (taken bs).length ≤ bs.length := by
  have h := List.length_filter_le (fun n => decide (n ≤ 0x3F)) (bs.map tableValue)
  rwa [List.length_map] at h

theorem inRoom_iff (buffer : View) :
    InRoom buffer ↔ 3 ≤ buffer.addr + buffer.size ∧ ¬ Overflows buffer := by
  have hlen : buffer.bytes.length = buffer.size := rfl
  obtain ⟨m, hm⟩ : ∃ m, m = buffer.size / 4 := ⟨_, rfl⟩
  have hkt : (taken (rest buffer.bytes)).length ≤ 3 := by
    refine (taken_length_le (rest buffer.bytes)).trans ?_
    rw [rest, List.length_drop]
    omega
  have hks : ∀ k ∈ groupCounts buffer.bytes m, k ≤ 4 := by
    intro k hk
    obtain ⟨i, -, rfl⟩ := List.mem_map.mp hk
    refine (taken_length_le (group buffer.bytes i)).trans ?_
    rw [group, List.length_take]
    omega
  have hcounts : (groupCounts buffer.bytes m).length = m := by simp [groupCounts]
  have hbounds := stage_bounds buffer.bytes m
  have hri := Stage.take_ri _ (taken (rest buffer.bytes)) hbounds.1
  obtain ⟨hle, hshape⟩ := shape_of_tally _ hks
  rw [stage_tally, hcounts] at hle hshape
  simp only at hle hshape
  simp only [InRoom, Overflows, lastStage, hlen, ← hm, Stage.take_bytes, registerBytes_length, hri]
  apply and_congr_right
  intro _
  constructor
  · rintro hfits ⟨less, pending, hs, hover⟩
    obtain ⟨htally, hless, hpending⟩ := shape_tally hs
    rw [stage_tally, hcounts] at htally
    obtain ⟨hn, hp⟩ := Prod.mk.inj htally
    rw [hn, hp, if_pos (by omega)] at hfits
    rw [hcounts] at hless
    omega
  · intro hover
    by_contra hfits
    rcases hshape (by split_ifs at hfits <;> omega) with ⟨less, hs, hless⟩ | ⟨hless, hpending⟩
    · refine hover ⟨less, _, hs, ?_⟩
      obtain ⟨-, -, hpending⟩ := shape_tally hs
      split_ifs at hfits <;> omega
    · rw [hpending] at hfits
      split_ifs at hfits <;> omega

/-- Every read of `decode` is inside of the input, and every write below the capacity of the result,
if and only if the address three bytes before the end does not wrap, and the sextets behind the
last whole group do not write beyond the capacity. -/
theorem decode_in_bounds_iff (buffer : View) :
    (∀ malloc, Fine (decode malloc buffer)) ↔
      3 ≤ buffer.addr + buffer.size ∧ ¬ Overflows buffer := by
  rw [← inRoom_iff]
  constructor
  · intro hfine
    rcases decode_eq .zeroed buffer with ⟨hrefuses, -⟩ | ⟨hin, -⟩ | ⟨-, hund⟩
    · exact absurd hrefuses zeroed_serves
    · exact hin
    · exact absurd hund (hfine .zeroed)
  · intro hin malloc hund
    rcases decode_eq malloc buffer with ⟨-, hbad⟩ | ⟨-, hok⟩ | ⟨hout, -⟩
    · cases hbad.symm.trans hund
    · cases hok.symm.trans hund
    · exact hout hin

/-- 26 characters: the capacity for six groups is 18 bytes, and the last byte would be the 19th. -/
theorem decode_overflows : decode .zeroed
    ⟨⟨List.replicate 26 65, by decide⟩, 4096, by decide⟩ = .error .undefined := by
  decide +kernel

end Libnodecc.Util.Base64
