import Libnodecc.Buffer.Value
import Libnodecc.Framework.Loop

namespace Libnodecc.Util.Uri

def percentSign : UInt8 := 0x25
def plusSign : UInt8 := 0x2B
def space : UInt8 := 0x20

/-- `hex_to_int`, with the fall-through of its first `case`; `none` is the exception. -/
def hexToInt (c : UInt8) : Option UInt8 :=
  let lo := c &&& 0x0F
  let hi := c &&& 0xF0
  if hi = 0x30 ∧ lo ≤ 9 then some lo
  else if (hi = 0x30 ∨ hi = 0x40 ∨ hi = 0x60) ∧ 1 ≤ lo ∧ lo ≤ 6 then some (9 + lo)
  else none

/-- The variables of the loop. -/
structure Cursor where
  i : Nat
  result : Buf

/-- The body of the loop of `component_decode`, with its `i++`; `none` is an exception. -/
def decodeByte (buffer : Bytes) (urlencoded : Bool) (s : Cursor) : Option Cursor := do
  let c ← buffer[s.i]?
  if c < 0x20 ∨ 0x7F ≤ c then none
  else if urlencoded = true ∧ c = plusSign then
    pure ⟨s.i + 1, s.result.appendData [space]⟩
  else if c = percentSign ∧ 2 < buffer.length - s.i then do
    let c1 ← buffer[s.i + 1]?
    let lo ← hexToInt c1
    let c2 ← buffer[s.i + 2]?
    let hi ← hexToInt c2
    pure ⟨s.i + 3, s.result.appendData [hi <<< 4 + lo]⟩
  else pure ⟨s.i + 1, s.result.appendData [c]⟩

/-- `uri::component_decode`; a round moves on in the input, so that there are no more rounds than
bytes. -/
def componentDecode (buffer : Bytes) (urlencoded : Bool) : Buf :=
  match whileSome (fun s => s.i < buffer.length) (decodeByte buffer urlencoded)
      (buffer.length + 1) ⟨0, none⟩ with
  | some s => s.result
  | none => none

def hexDigit (upper : Bool) (d : Nat) : UInt8 :=
  UInt8.ofNat (if d < 10 then 0x30 + d else (if upper then 0x41 else 0x61) + (d - 10))

inductive Written (urlencoded : Bool) where
  | literal (b : UInt8) (printable : 0x20 ≤ b ∧ b < 0x7F ∧ b ≠ percentSign)
      (plain : urlencoded = true → b ≠ plusSign)
  | escape (b : UInt8) (upperHigh upperLow : Bool)
  | plus (h : urlencoded = true)

namespace Written

section
variable {urlencoded : Bool}

def text : Written urlencoded → Bytes
  | literal b _ _ => [b]
  | escape b upperHigh upperLow =>
    [percentSign, hexDigit upperHigh (b.toNat / 16), hexDigit upperLow (b.toNat % 16)]
  | plus _ => [plusSign]

def value : Written urlencoded → UInt8
  | literal b _ _ => b
  | escape b _ _ => b
  | plus _ => space

def decoded : Written urlencoded → UInt8
  | literal b _ _ => b
  | escape b _ _ => UInt8.ofNat (b.toNat % 16 * 16 + b.toNat / 16)
  | plus _ => space

def Symmetric : Written urlencoded → Prop
  | escape b _ _ => b.toNat / 16 = b.toNat % 16
  | _ => True

end

end Written

theorem hexToInt_hexDigit (upper : Bool) (d : Nat) (hd : d < 16) :
    hexToInt (hexDigit upper d) = some (UInt8.ofNat d) := by
  revert d
  cases upper <;> decide

theorem exchanged_eq_iff (b : UInt8) :
    UInt8.ofNat (b.toNat % 16 * 16 + b.toNat / 16) = b ↔ b.toNat / 16 = b.toNat % 16 := by
  have h := b.toNat_lt
  rw [← UInt8.toNat_inj, UInt8.toNat_ofNat']
  omega

section
variable {urlencoded : Bool}

theorem decoded_eq_iff (w : Written urlencoded) : w.decoded = w.value ↔ w.Symmetric := by
  cases w with
  | literal b h h' => exact iff_of_true rfl trivial
  | escape b u l => exact exchanged_eq_iff b
  | plus h => exact iff_of_true rfl trivial

theorem text_length_pos (w : Written urlencoded) : 0 < w.text.length := by
  cases w <;> exact Nat.succ_pos _

/-- One round of the loop takes one byte as it is written. -/
theorem decodeByte_written (w : Written urlencoded) (front rest : Bytes) (result : Buf) :
    decodeByte (front ++ w.text ++ rest) urlencoded ⟨front.length, result⟩ =
      some ⟨front.length + w.text.length, result.appendData [w.decoded]⟩ := by
  cases w with
  | literal b printable plain =>
    obtain ⟨hlow, hhigh, hpercent⟩ := printable
    have hrange : ¬ (b < 0x20 ∨ 0x7F ≤ b) := by
      intro h
      cases h with
      | inl h => exact absurd hlow (UInt8.not_le.mpr h)
      | inr h => exact absurd hhigh (UInt8.not_lt.mpr h)
    have hplus : ¬ (urlencoded = true ∧ b = plusSign) := fun h => plain h.1 h.2
    have hget : (front ++ [b] ++ rest)[front.length]? = some b := by simp
    simp only [decodeByte, Written.text, hget, Option.bind_eq_bind, Option.bind_some,
      if_neg hrange, if_neg hplus, hpercent, false_and, if_false]
    rfl
  | escape b upperHigh upperLow =>
    have hb := b.toNat_lt
    have hfirst := hexToInt_hexDigit upperHigh (b.toNat / 16) (by omega)
    have hsecond := hexToInt_hexDigit upperLow (b.toNat % 16) (by omega)
    have hrange : ¬ (percentSign < 0x20 ∨ 0x7F ≤ percentSign) := by decide
    have hplus : ¬ (urlencoded = true ∧ percentSign = plusSign) := fun h => absurd h.2 (by decide)
    have hget (k : Nat) (hk : k < 3) (x y z : UInt8) :
        (front ++ [x, y, z] ++ rest)[front.length + k]? = [x, y, z][k]? := by
      rw [List.append_assoc, List.getElem?_append_right (by omega), Nat.add_sub_cancel_left,
        List.getElem?_append_left (by simpa using hk)]
    have h0 := hget 0 (by decide) percentSign (hexDigit upperHigh (b.toNat / 16))
      (hexDigit upperLow (b.toNat % 16))
    have h1 := hget 1 (by decide) percentSign (hexDigit upperHigh (b.toNat / 16))
      (hexDigit upperLow (b.toNat % 16))
    have h2 := hget 2 (by decide) percentSign (hexDigit upperHigh (b.toNat / 16))
      (hexDigit upperLow (b.toNat % 16))
    have hroom : 2 < (front ++ [percentSign, hexDigit upperHigh (b.toNat / 16),
        hexDigit upperLow (b.toNat % 16)] ++ rest).length - front.length := by
      simp only [List.length_append, List.length_cons, List.length_nil]
      omega
    have hbyte : UInt8.ofNat (b.toNat % 16) <<< 4 + UInt8.ofNat (b.toNat / 16) =
        UInt8.ofNat (b.toNat % 16 * 16 + b.toNat / 16) := by
      have h16 : 2^((4 : UInt8).toNat % 8) = 16 := rfl
      apply UInt8.toNat_inj.mp
      simp only [UInt8.toNat_add, UInt8.toNat_shiftLeft, UInt8.toNat_ofNat', Nat.shiftLeft_eq, h16]
      omega
    rw [Nat.add_zero] at h0
    simp only [decodeByte, Written.text, h0, h1, h2, Option.bind_eq_bind,
      if_neg hrange, if_neg hplus, hroom, and_self, if_true, List.getElem?_cons_zero,
      List.getElem?_cons_succ, Option.bind_some, hfirst, hsecond, hbyte]
    rfl
  | plus h =>
    have hrange : ¬ (plusSign < 0x20 ∨ 0x7F ≤ plusSign) := by decide
    have hget : (front ++ [plusSign] ++ rest)[front.length]? = some plusSign := by simp
    simp only [decodeByte, Written.text, hget, Option.bind_eq_bind, Option.bind_some,
      if_neg hrange, h, and_self, if_true]
    rfl

/-- The first `n` bytes are decoded. -/
structure Decoded (ws : List (Written urlencoded)) (n : Nat) (s : Cursor) : Prop where
  index : s.i = ((ws.take n).flatMap Written.text).length
  bytes : s.result.bytes = (ws.take n).map Written.decoded

theorem Decoded.next {ws : List (Written urlencoded)} {n : Nat} {s : Cursor} (hs : Decoded ws n s)
    (hn : n < ws.length) :
    s.i < (ws.flatMap Written.text).length ∧
      ∃ t, decodeByte (ws.flatMap Written.text) urlencoded s = some t ∧ Decoded ws (n + 1) t := by
  have hall : ws.flatMap Written.text = (ws.take n).flatMap Written.text ++
      ws[n].text ++ (ws.drop (n + 1)).flatMap Written.text := by
    conv_lhs => rw [← List.take_append_drop n ws, List.drop_eq_getElem_cons hn]
    rw [List.flatMap_append, List.flatMap_cons, List.append_assoc]
  have hpos := text_length_pos ws[n]
  have hstep := decodeByte_written ws[n] ((ws.take n).flatMap Written.text)
    ((ws.drop (n + 1)).flatMap Written.text) s.result
  rw [← hall, ← hs.index] at hstep
  refine ⟨?_, _, hstep, ?_, ?_⟩
  · rw [hall, hs.index]
    simp only [List.length_append]
    omega
  · rw [List.take_succ_eq_append_getElem hn, List.flatMap_append, List.length_append, hs.index,
      List.flatMap_cons, List.flatMap_nil, List.append_nil]
  · rw [List.take_succ_eq_append_getElem hn, List.map_append, ← hs.bytes]
    rfl

theorem length_le_text (ws : List (Written urlencoded)) :
    ws.length ≤ (ws.flatMap Written.text).length := by
  induction ws with
  | nil => exact le_rfl
  | cons w ws ih =>
    have hw := text_length_pos w
    rw [List.flatMap_cons, List.length_append, List.length_cons]
    omega

/-- What is written comes out byte by byte. -/
theorem componentDecode_text (ws : List (Written urlencoded)) :
    (componentDecode (ws.flatMap Written.text) urlencoded).bytes = ws.map Written.decoded := by
  have hloop : ∃ s, whileSome (fun s => s.i < (ws.flatMap Written.text).length)
      (decodeByte (ws.flatMap Written.text) urlencoded) ((ws.flatMap Written.text).length + 1)
      ⟨0, none⟩ = some s ∧ Decoded ws ws.length s := by
    apply whileSome_done (Decoded ws) ws.length 0 _ _ (Nat.zero_le _)
    · exact fun n hn s hs => hs.next hn
    · intro s hs
      rw [hs.index, List.take_length]
      exact lt_irrefl _
    · have hle := length_le_text ws
      omega
    · exact ⟨rfl, rfl⟩
  obtain ⟨s, hs, hdone⟩ := hloop
  have hbytes := hdone.bytes
  rw [List.take_length] at hbytes
  rw [componentDecode, hs, hbytes]

/-- Decoding gives back what was encoded exactly if no escape changes with its digits exchanged. -/
theorem component_decode_iff (ws : List (Written urlencoded)) :
    (componentDecode (ws.flatMap Written.text) urlencoded).bytes = ws.map Written.value ↔
      ∀ w ∈ ws, w.Symmetric := by
  rw [componentDecode_text, List.map_inj_left]
  exact forall₂_congr fun w _ => decoded_eq_iff w

end

/-- `"%2B"` comes out as the byte `0xB2`. -/
theorem digits_exchanged :
    (componentDecode [0x25, 0x32, 0x42] false).bytes ≠ [0x2B] := by
  decide

end Libnodecc.Util.Uri
