import Libnodecc.Buffer.OwnBytes
import Libnodecc.Util.DigitCount

namespace Libnodecc.Buffer

open Util

/-- The numeral of a number: its digits, the highest one first, and one digit for zero. -/
def canonical (base n : Nat) : Bytes :=
  (if n = 0 then [0] else (Nat.digits base n).reverse).map Buf.digitChar

/-- What is expected of `append_number`: no division by zero, as many digits as room was made for,
and the numeral behind the bytes that were there. -/
structure AppendsNumeral (build : Build) (malloc : Malloc) (s : State) (i n base : Nat) : Prop where
  divides : ipow base (subSizeT (digits build n base) 1) ≠ 0
  fits : (Buf.digitLoop n base 64 (ipow base (subSizeT (digits build n base) 1))).length =
    digits build n base
  shows : ∃ t old, s.appendNumber malloc build i n base = .ok t ∧ s.shown i = some old ∧
    t.shown i = some (old ++ canonical base n)

theorem numeral_canonical (base n : Nat) (h2 : 2 ≤ base) :
    (numeral base (Nat.log base n + 1) n).map Buf.digitChar = canonical base n := by
  unfold canonical
  split_ifs with hz
  · subst hz
    simp [numeral]
  · rw [numeral_digits base _ n (by omega) (Nat.pow_log_le_self base hz)
      (Nat.lt_pow_succ_log_self (by omega) n)]

theorem canonical_length (base n : Nat) (h2 : 2 ≤ base) :
    (canonical base n).length = Nat.log base n + 1 := by
  rw [← numeral_canonical base n h2, List.length_map, numeral_length]

/-- With the right number of digits, the divisor is the place value of the first one. -/
theorem place_value (build : Build) (n base : Nat) (h2 : 2 ≤ base) (hn : n < 2^64)
    (hlen : digits build n base = Nat.log base n + 1) :
    ipow base (subSizeT (digits build n base) 1) = base^(Nat.log base n) ∧
      Nat.log base n < 64 := by
  have hpow : base^(Nat.log base n) < 2^64 := by
    by_cases hz : n = 0
    · rw [hz, Nat.log_zero_right, pow_zero]
      decide
    · exact lt_of_le_of_lt (Nat.pow_log_le_self base hz) hn
  have hle : 2^(Nat.log base n) ≤ base^(Nat.log base n) := Nat.pow_le_pow_left h2 _
  have hlt : Nat.log base n < 64 :=
    (Nat.pow_lt_pow_iff_right (by decide)).mp (lt_of_le_of_lt hle hpow)
  have hsub : subSizeT (Nat.log base n + 1) 1 = Nat.log base n := by
    simp only [subSizeT, sizeT]
    omega
  rw [hlen, hsub, ipow_eq base _ (by omega), Nat.mod_eq_of_lt hpow]
  exact ⟨rfl, hlt⟩

section
variable {s : State} {i : Nat}

theorem appendNumber_eq (build : Build) (malloc : Malloc) (n base : Nat) (hs : s.WellFormed i)
    (h2 : 2 ≤ base) (h36 : base ≤ 36) : s.appendNumber malloc build i n base =
    s.append malloc i (digits build n base) fun _ =>
      if ipow base (subSizeT (digits build n base) 1) = 0 then none
      else some (Buf.digitLoop n base 64 (ipow base (subSizeT (digits build n base) 1))) := by
  obtain ⟨this, capacity, hthis, hcapacity⟩ := has_mutable hs.has
  have hc : s.capacity i = .ok capacity := capacity_ok.mpr ⟨this, hthis, hcapacity⟩
  rw [State.appendNumber, hc]
  exact if_pos ⟨h2, h36⟩

theorem digits_of_appends {build : Build} {malloc : Malloc} {n base : Nat} (hs : s.WellFormed i)
    (h2 : 2 ≤ base) (h36 : base ≤ 36) (h : AppendsNumeral build malloc s i n base) :
    digits build n base = Nat.log base n + 1 := by
  obtain ⟨this, -, hthis, -⟩ := has_mutable hs.has
  have hold := shown_of_get hs.wf hthis
  obtain ⟨t, old, ht, hshown, hafter⟩ := h.shows
  have hle := digitLoop_length_le n base 64 (ipow base (subSizeT (digits build n base) 1))
  rw [h.fits] at hle
  rw [appendNumber_eq build malloc n base hs h2 h36] at ht
  have hlen := append_size hs.wf hthis (hs.grows hthis _) (by omega) ht hafter
  obtain rfl := Option.some.inj (hshown.symm.trans hold)
  rw [List.length_append, (hs.wf.room hthis).cellsAt_length, canonical_length base n h2] at hlen
  omega

/-- With room for the digits of the numeral, these are appended. -/
theorem appends_of_digits {build : Build} {malloc : Malloc} {n base : Nat} (hs : s.WellFormed i)
    (hn : n < 2^64) (h2 : 2 ≤ base) (h36 : base ≤ 36)
    (halloc : s.appendNumber malloc build i n base ≠ .error .badAlloc)
    (hlen : digits build n base = Nat.log base n + 1) :
    AppendsNumeral build malloc s i n base := by
  obtain ⟨this, -, hthis, -⟩ := has_mutable hs.has
  have hold := shown_of_get hs.wf hthis
  obtain ⟨hdiv, hlog⟩ := place_value build n base h2 hn hlen
  have hne : base^(Nat.log base n) ≠ 0 := (Nat.pow_pos (by omega)).ne'
  have hloop := Buf.digitLoop_eq n base 64 (Nat.log base n) h2 hlog
  have hfits : (Buf.digitLoop n base 64 (base^(Nat.log base n))).length = digits build n base := by
    rw [hloop, List.length_map, numeral_length, hlen]
  have hcall := appendNumber_eq build malloc n base hs h2 h36
  rw [hdiv] at hcall
  simp only [hne, if_false] at hcall
  have hdivides : ipow base (subSizeT (digits build n base) 1) ≠ 0 := by
    rw [hdiv]
    exact hne
  have hwritten : (Buf.digitLoop n base 64 (ipow base (subSizeT (digits build n base) 1))).length =
      digits build n base := by
    rw [hdiv]
    exact hfits
  refine ⟨hdivides, hwritten, ?_⟩
  have hall : ∀ h, s.handles[i]? = some h →
      h.Grows s.heap (sizeT (digits build n base + h.ref.size)) :=
    fun h hh => hs.grows hh _
  have hfine : Fine (s.append malloc i (digits build n base) fun _ =>
      some (Buf.digitLoop n base 64 (base^(Nat.log base n)))) :=
    fine_appendBytes hs.wf hs.has hfits (by omega) hall fun _ => rfl
  rw [← hcall] at hfine
  obtain ⟨t, ht⟩ := returns_of_fine hfine halloc
  have hshown := append_shown hs.wf hthis (hs.grows hthis _) (by omega) hfits
    (fun _ _ _ => rfl) (hcall ▸ ht)
  rw [hloop, numeral_canonical base n h2] at hshown
  exact ⟨t, _, ht, hold, hshown⟩

end

/-- `append_number` appends the numeral exactly where `digits` gives its length. -/
theorem append_number_iff (build : Build) (malloc : Malloc) (s : State) (i n base : Nat)
    (hexact : build.ExactLogs) (hs : s.WellFormed i) (hn : n < 2^64) (h2 : 2 ≤ base)
    (h36 : base ≤ 36) (halloc : s.appendNumber malloc build i n base ≠ .error .badAlloc) :
    AppendsNumeral build malloc s i n base ↔ Sized build n base := by
  rw [← digits_iff build n base hexact hn h2 h36]
  exact ⟨digits_of_appends hs h2 h36, appends_of_digits hs hn h2 h36 halloc⟩

theorem append_number_iff_hex :
    AppendsNumeral glibc .zeroed (State.init.push .null (some 0)) 0 255 16 := by
  have hok : ((State.init.push .null (some 0)).appendNumber .zeroed glibc 0 255 16).isOk =
      true := by
    decide +kernel
  have halloc : (State.init.push .null (some 0)).appendNumber .zeroed glibc 0 255 16 ≠
      .error .badAlloc := by
    intro h
    rw [h] at hok
    cases hok
  exact (append_number_iff glibc .zeroed _ 0 255 16 glibc_exactLogs fresh_wellFormed (by decide)
    (by decide) (by decide) halloc).mpr (by decide)

/-- `5` is `12` in base 3, and is appended as `2`. -/
theorem leading_digit_lost :
    ((State.init.push .null (some 0)).appendNumber .zeroed glibc 0 5 3).map (fun t => t.shown 0) ≠
      .ok (some (canonical 3 5)) := by
  decide +kernel

end Libnodecc.Buffer
