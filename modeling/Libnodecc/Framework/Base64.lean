import Libnodecc.Framework.Numeral

namespace Libnodecc

section
variable {α : Type*} (digit : Nat → α) (pad : α)

/-- The base 64 coding: a group of three bytes is a number of 24 bits, written with four digits.
A shorter last group is filled up with zero bits, and what holds none of its bits is padding. -/
def base64 : List UInt8 → List α
  | a :: b :: c :: rest =>
    (numeral 64 4 (readDigits 256 0 [a.toNat, b.toNat, c.toNat])).map digit ++ base64 rest
  | [a, b] => (numeral 64 3 (readDigits 256 0 [a.toNat, b.toNat] * 2^2)).map digit ++ [pad]
  | [a] => (numeral 64 2 (readDigits 256 0 [a.toNat] * 2^4)).map digit ++ [pad, pad]
  | [] => []

theorem base64_group (a b c : UInt8) (rest : List UInt8) :
    base64 digit pad (a :: b :: c :: rest) =
      base64 digit pad [a, b, c] ++ base64 digit pad rest := by
  simp [base64]

theorem base64_append (k : Nat) (bs rest : List UInt8) (hk : bs.length = 3 * k) :
    base64 digit pad (bs ++ rest) = base64 digit pad bs ++ base64 digit pad rest := by
  induction k generalizing bs with
  | zero =>
    obtain rfl := List.length_eq_zero_iff.mp hk
    simp [base64]
  | succ k ih =>
    match bs, hk with
    | a :: b :: c :: bs, hk =>
      have hlen : bs.length = 3 * k := by
        simp only [List.length_cons] at hk
        omega
      rw [List.cons_append, List.cons_append, List.cons_append, base64_group,
        base64_group _ _ a b c bs, ih bs hlen, List.append_assoc]

theorem base64_length (bs : List UInt8) :
    (base64 digit pad bs).length = (bs.length + 2) / 3 * 4 := by
  match bs with
  | [] => rfl
  | [a] => simp [base64]
  | [a, b] => simp [base64]
  | a :: b :: c :: rest =>
    have h := base64_length rest
    rw [base64_group, List.length_append, h]
    simp only [base64, List.length_append, List.length_map, numeral_length, List.length_nil,
      List.length_cons]
    omega

theorem numeral_mem {ds : List α} {k n : Nat} {x : α} (hds : ds = (numeral 64 k n).map digit)
    (hx : x ∈ ds) : ∃ d < 64, x = digit d := by
  rw [hds] at hx
  obtain ⟨d, hd, rfl⟩ := List.mem_map.mp hx
  exact ⟨d, numeral_lt 64 k n (by decide) d hd, rfl⟩

theorem base64_mem (bs : List UInt8) (x : α) (hx : x ∈ base64 digit pad bs) :
    (∃ d < 64, x = digit d) ∨ x = pad := by
  match bs, hx with
  | [a], hx =>
    rcases List.mem_append.mp hx with hx | hx
    · exact Or.inl (numeral_mem digit rfl hx)
    · exact Or.inr (by simpa using hx)
  | [a, b], hx =>
    rcases List.mem_append.mp hx with hx | hx
    · exact Or.inl (numeral_mem digit rfl hx)
    · exact Or.inr (by simpa using hx)
  | a :: b :: c :: rest, hx =>
    rcases List.mem_append.mp hx with hx | hx
    · exact Or.inl (numeral_mem digit rfl hx)
    · exact base64_mem rest x hx

end

/-- The bytes of a group of up to four digits, of which a shorter one holds less than eight bits. -/
def groupBytes (ds : List Nat) : List UInt8 :=
  (numeral 256 (ds.length - 1) (readDigits 64 0 ds / 2^(8 - 2 * ds.length))).map UInt8.ofNat

/-- Decoding: four digits give three bytes, and a last group of one, two or three digits gives the
bytes it holds all bits of. -/
def unbase64 : List Nat → List UInt8
  | a :: b :: c :: d :: rest => groupBytes [a, b, c, d] ++ unbase64 rest
  | ds => groupBytes ds

@[simp] theorem groupBytes_length (ds : List Nat) : (groupBytes ds).length = ds.length - 1 := by
  simp [groupBytes]

theorem unbase64_short (ds : List Nat) (h : ds.length ≤ 4) : unbase64 ds = groupBytes ds := by
  match ds, h with
  | [], _ => rfl
  | [a], _ => rfl
  | [a, b], _ => rfl
  | [a, b, c], _ => rfl
  | [a, b, c, d], _ => simp [unbase64, groupBytes, numeral]

theorem unbase64_append (k : Nat) (ds rest : List Nat) (hk : ds.length = 4 * k) :
    unbase64 (ds ++ rest) = unbase64 ds ++ unbase64 rest := by
  induction k generalizing ds with
  | zero =>
    obtain rfl := List.length_eq_zero_iff.mp hk
    rfl
  | succ k ih =>
    match ds, hk with
    | a :: b :: c :: d :: ds, hk =>
      have hlen : ds.length = 4 * k := by
        simp only [List.length_cons] at hk
        omega
      rw [List.cons_append, List.cons_append, List.cons_append, List.cons_append, unbase64,
        unbase64, ih ds hlen, List.append_assoc]

theorem unbase64_length (ds : List Nat) : (unbase64 ds).length = 3 * ds.length / 4 := by
  match ds with
  | [] => rfl
  | [a] => simp [unbase64]
  | [a, b] => simp [unbase64]
  | [a, b, c] => simp [unbase64]
  | a :: b :: c :: d :: rest =>
    have h := unbase64_length rest
    rw [unbase64, List.length_append, h, groupBytes_length]
    simp only [List.length_cons, List.length_nil]
    omega

section
variable {α : Type*} (digit : Nat → α) (pad : α) (value : α → Option Nat)

theorem filterMap_digits (hdigit : ∀ d < 64, value (digit d) = some d) (k n : Nat) :
    ((numeral 64 k n).map digit).filterMap value = numeral 64 k n := by
  have hlt := numeral_lt 64 k n (by decide)
  generalize numeral 64 k n = ds at hlt
  induction ds with
  | nil => rfl
  | cons d ds ih =>
    rw [List.map_cons, List.filterMap_cons_some (hdigit d (hlt d (by simp))),
      ih fun e he => hlt e (by simp [he])]

/-- A group of digits made of one to three bytes gives these bytes. -/
theorem groupBytes_numeral (bs : List UInt8) (k : Nat) (hk : bs.length = k) (h1 : 1 ≤ k)
    (h3 : k ≤ 3) :
    groupBytes (numeral 64 (k + 1) (readDigits 256 0 (bs.map UInt8.toNat) * 2^(6 - 2 * k))) =
      bs := by
  have hlt : ∀ d ∈ bs.map UInt8.toNat, d < 256 := by
    intro d hd
    obtain ⟨b, -, rfl⟩ := List.mem_map.mp hd
    exact b.toNat_lt
  obtain ⟨hread, hnum⟩ := numeral_readDigits 256 (bs.map UInt8.toNat) (by decide) hlt
  rw [List.length_map, hk] at hread hnum
  generalize readDigits 256 0 (bs.map UInt8.toNat) = n at hread hnum
  have hpow : 256^k * 2^(6 - 2 * k) = 64^(k + 1) := by
    obtain rfl | rfl | rfl : k = 1 ∨ k = 2 ∨ k = 3 := by omega
    all_goals rfl
  have hfits : n * 2^(6 - 2 * k) < 64^(k + 1) := by
    rw [← hpow]
    exact Nat.mul_lt_mul_of_pos_right hread (by positivity)
  have hexp : 8 - 2 * (k + 1) = 6 - 2 * k := by omega
  rw [groupBytes, numeral_length, readDigits_numeral_of_lt 64 (k + 1) _ hfits, hexp,
    Nat.mul_div_cancel _ (by positivity), Nat.add_sub_cancel, hnum, List.map_map]
  have hbyte : UInt8.ofNat ∘ UInt8.toNat = id := by
    funext b
    exact UInt8.ofNat_toNat
  rw [hbyte, List.map_id]

/-- What is encoded is decoded, once the padding is dropped. -/
theorem unbase64_base64 (hdigit : ∀ d < 64, value (digit d) = some d) (hpad : value pad = none)
    (bs : List UInt8) : unbase64 ((base64 digit pad bs).filterMap value) = bs := by
  match bs with
  | [] => rfl
  | [a] =>
    have h := groupBytes_numeral [a] 1 rfl (by omega) (by omega)
    rw [base64, List.filterMap_append, filterMap_digits digit value hdigit]
    simp only [List.filterMap_cons, hpad, List.filterMap_nil, List.append_nil]
    rw [unbase64_short _ (by simp)]
    exact h
  | [a, b] =>
    have h := groupBytes_numeral [a, b] 2 rfl (by omega) (by omega)
    rw [base64, List.filterMap_append, filterMap_digits digit value hdigit]
    simp only [List.filterMap_cons, hpad, List.filterMap_nil, List.append_nil]
    rw [unbase64_short _ (by simp)]
    exact h
  | a :: b :: c :: rest =>
    have ih := unbase64_base64 hdigit hpad rest
    have h := groupBytes_numeral [a, b, c] 3 rfl (by omega) (by omega)
    rw [base64, List.filterMap_append, filterMap_digits digit value hdigit,
      unbase64_append 1 _ _ (by simp), unbase64_short _ (by simp), ih]
    simp only [Nat.reduceMul, Nat.sub_self, pow_zero, Nat.mul_one] at h
    exact congrArg (· ++ rest) h

theorem filterMap_base64_length (hdigit : ∀ d < 64, value (digit d) = some d)
    (hpad : value pad = none) (bs : List UInt8) (k : Nat) (hk : bs.length = 3 * k) :
    ((base64 digit pad bs).filterMap value).length = 4 * k := by
  have hle := List.length_filterMap_le value (base64 digit pad bs)
  have hback := congrArg List.length (unbase64_base64 digit pad value hdigit hpad bs)
  rw [unbase64_length] at hback
  rw [base64_length] at hle
  omega

end

end Libnodecc
