import Libnodecc.Framework.Run
import Libnodecc.Framework.Numeral

namespace Libnodecc.Chunked

def hexValue (b : UInt8) : Option Nat :=
  if 0x30 ≤ b ∧ b ≤ 0x39 then some (b.toNat - 0x30)
  else if 0x41 ≤ b ∧ b ≤ 0x46 then some (b.toNat - 0x41 + 10)
  else if 0x61 ≤ b ∧ b ≤ 0x66 then some (b.toNat - 0x61 + 10)
  else none

/-- What a decoder expects next. -/
inductive Phase where
  | size (n : Nat) (seen : Bool)
  | sizeLf (n : Nat)
  | data (left : Nat)
  | dataCr
  | dataLf
  | lastCr
  | lastLf
  | done
  deriving DecidableEq

/-- A decoder of the chunked transfer coding, without chunk extensions and trailers. -/
structure Decoder where
  phase : Phase
  body : List UInt8
  deriving DecidableEq

namespace Decoder

def start (body : List UInt8) : Decoder := ⟨.size 0 false, body⟩

def expect (d : Decoder) (b b' : UInt8) (phase : Phase) : Option Decoder :=
  if b = b' then some { d with phase := phase } else none

def step (d : Decoder) (b : UInt8) : Option Decoder :=
  match d.phase with
  | .size n seen =>
    match hexValue b with
    | some v => some { d with phase := .size (n * 16 + v) true }
    | none => if seen then d.expect b 13 (.sizeLf n) else none
  | .sizeLf n => d.expect b 10 (if n = 0 then .lastCr else .data n)
  | .data left => some ⟨if left ≤ 1 then .dataCr else .data (left - 1), d.body ++ [b]⟩
  | .dataCr => d.expect b 13 .dataLf
  | .dataLf => d.expect b 10 (.size 0 false)
  | .lastCr => d.expect b 13 .lastLf
  | .lastLf => d.expect b 10 .done
  | .done => none

/-- A chunk size as a sender writes it, digit by digit. -/
theorem run_size (digit : Nat → UInt8) (hdigit : ∀ d < 16, hexValue (digit d) = some d)
    (ds : List Nat) (hds : ∀ d ∈ ds, d < 16) (n : Nat) (seen : Bool) (body : List UInt8) :
    run step ⟨.size n seen, body⟩ (ds.map digit) =
      some ⟨.size (readDigits 16 n ds) (seen || !ds.isEmpty), body⟩ := by
  induction ds generalizing n seen with
  | nil => simp [readDigits]
  | cons d ds ih =>
    have hd := hdigit d (hds d (by simp))
    have ih := ih (fun x hx => hds x (by simp [hx])) (n * 16 + d) true
    rw [List.map_cons, run_cons]
    simp only [step, hd, Option.bind_some, ih]
    simp [readDigits]

theorem run_data (data : List UInt8) (n : Nat) (body : List UInt8) (hn : data.length = n)
    (hpos : data ≠ []) : run step ⟨.data n, body⟩ data = some ⟨.dataCr, body ++ data⟩ := by
  induction data generalizing n body with
  | nil => exact absurd rfl hpos
  | cons b data ih =>
    subst hn
    rw [run_cons]
    cases data with
    | nil => simp [step]
    | cons c data =>
      have hlen : ¬(b :: c :: data).length ≤ 1 := by simp
      have ih := ih (c :: data).length (body ++ [b]) rfl (by simp)
      simp only [step, if_neg hlen, Option.bind_some]
      rw [List.append_assoc] at ih
      exact ih

/-- One chunk takes the decoder from one chunk boundary to the next. -/
theorem run_chunk (digit : Nat → UInt8) (hdigit : ∀ d < 16, hexValue (digit d) = some d)
    (ds : List Nat) (hds : ∀ d ∈ ds, d < 16) (data body : List UInt8) (hdata : data ≠ [])
    (hsize : readDigits 16 0 ds = data.length) :
    run step (start body) (ds.map digit ++ [13, 10] ++ data ++ [13, 10]) =
      some (start (body ++ data)) := by
  have hlen : data.length ≠ 0 := by simpa using hdata
  have hne : ds ≠ [] := by
    rintro rfl
    exact hlen hsize.symm
  have h1 := run_size digit hdigit ds hds 0 false body
  rw [hsize] at h1
  have h2 : run step ⟨.size data.length (false || !ds.isEmpty), body⟩ [13, 10] =
      some ⟨.data data.length, body⟩ := by
    have hcr : hexValue 13 = none := by decide
    simp [step, expect, hcr, hne, hdata]
  have h3 := run_data data data.length body rfl hdata
  have h4 : run step ⟨.dataCr, body ++ data⟩ [13, 10] = some (start (body ++ data)) := by
    simp [step, expect, start]
  exact run_append_eq_some step _ _ _ _ _ (run_append_eq_some step _ _ _ _ _
    (run_append_eq_some step _ _ _ _ _ h1 h2) h3) h4

/-- The last chunk ends the body. -/
theorem run_last (body : List UInt8) :
    run step (start body) [0x30, 13, 10, 13, 10] = some ⟨.done, body⟩ := by
  have h0 : hexValue 0x30 = some 0 := by decide
  have hcr : hexValue 13 = none := by decide
  simp [step, expect, start, h0, hcr]

/-- A line break is no chunk. -/
theorem run_cr (body rest : List UInt8) : run step (start body) (13 :: rest) = none := by
  have hcr : hexValue 13 = none := by decide
  simp [step, start, hcr]

theorem expect_body (d d' : Decoder) (b b' : UInt8) (phase : Phase)
    (h : d.expect b b' phase = some d') : d'.body = d.body := by
  unfold expect at h
  split_ifs at h
  obtain rfl := Option.some.inj h
  rfl

/-- A byte of a size line is none of the body. -/
theorem step_size (n : Nat) (seen : Bool) (body : List UInt8) (b : UInt8) (d : Decoder)
    (h : step ⟨.size n seen, body⟩ b = some d) : d.body = body := by
  simp only [step] at h
  cases hv : hexValue b with
  | some v =>
    simp only [hv] at h
    obtain rfl := Option.some.inj h
    rfl
  | none =>
    simp only [hv] at h
    split_ifs at h
    exact expect_body _ _ _ _ _ h

/-- A byte adds at most itself to the body. -/
theorem step_length (d d' : Decoder) (b : UInt8) (h : d.step b = some d') :
    d'.body.length ≤ d.body.length + 1 := by
  obtain ⟨phase, body⟩ := d
  cases phase with
  | size n seen =>
    rw [step_size n seen body b d' h]
    exact Nat.le_succ _
  | data left =>
    obtain rfl := Option.some.inj h
    simp
  | done => cases h
  | sizeLf | dataCr | dataLf | lastCr | lastLf =>
    rw [expect_body _ _ _ _ _ h]
    exact Nat.le_succ _

theorem run_length (bs : List UInt8) (d d' : Decoder) (h : run step d bs = some d') :
    d'.body.length ≤ d.body.length + bs.length := by
  induction bs generalizing d with
  | nil =>
    obtain rfl := Option.some.inj h
    exact Nat.le_refl _
  | cons b bs ih =>
    obtain ⟨d₁, hstep, hrest⟩ := Option.bind_eq_some_iff.mp h
    have hfirst := step_length d d₁ b hstep
    have hlast := ih d₁ hrest
    simp only [List.length_cons]
    omega

theorem body_length_lt (bs body : List UInt8) (h : run step (start []) bs = some ⟨.done, body⟩) :
    body.length < bs.length := by
  cases bs with
  | nil => cases h
  | cons b bs =>
    obtain ⟨d, hstep, hrest⟩ := Option.bind_eq_some_iff.mp h
    have hfirst := step_size 0 false [] b d hstep
    have hlast := run_length bs d _ hrest
    rw [hfirst] at hlast
    simp only [List.length_nil, List.length_cons] at hlast ⊢
    omega

end Decoder

end Libnodecc.Chunked
