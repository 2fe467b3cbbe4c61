import Libnodecc.Framework.Base64
import Libnodecc.Util.ResultBuffer
import Libnodecc.Util.ViewSpecs

namespace Libnodecc.Util.Base64

open Buffer

def rfc4648Char (base64url : Bool) (d : Nat) : UInt8 :=
  if d < 26 then UInt8.ofNat ('A'.toNat + d)
  else if d < 52 then UInt8.ofNat ('a'.toNat + (d - 26))
  else if d < 62 then UInt8.ofNat ('0'.toNat + (d - 52))
  else if d = 62 then UInt8.ofNat (if base64url then '-' else '+').toNat
  else UInt8.ofNat (if base64url then '_' else '/').toNat

def rfc4648 (base64url : Bool) (bs : Bytes) : Bytes :=
  base64 (rfc4648Char base64url) equalsSign bs

theorem encodeTable_get (base64url : Bool) (d : Nat) (hd : d < 64) :
    (encodeTable base64url)[d]? = some (rfc4648Char base64url d) := by
  revert d
  cases base64url <;> decide

theorem lookup_eq (base64url : Bool) (ds : List Nat) (hds : ∀ d ∈ ds, d < 64) :
    lookup (encodeTable base64url) ds = some (ds.map (rfc4648Char base64url)) := by
  induction ds with
  | nil => rfl
  | cons d ds ih =>
    rw [lookup, List.mapM_cons, encodeTable_get base64url d (hds d (by simp))]
    have h := ih fun d hd => hds d (by simp [hd])
    rw [lookup] at h
    simp [h]

theorem sextets_eq (a b c : Nat) (ha : a < 2^8) (hb : b < 2^8) (hc : c < 2^8) :
    sextets a b c = numeral 64 4 (readDigits 256 0 [a, b, c]) := by
  have hb' : b / 2^4 < 2^4 := by omega
  have hc' : c / 2^6 < 2^2 := by omega
  have h3 : a &&& 0x03 = a % 2^2 := and_mask a 2
  have hf : b &&& 0x0f = b % 2^4 := and_mask b 4
  have h3f : c &&& 0x3f = c % 2^6 := and_mask c 6
  simp only [sextets, shiftLeft_or _ _ _ hb', shiftLeft_or _ _ _ hc', h3, hf, h3f,
    Nat.shiftRight_eq_div_pow, readDigits_three, numeral, List.cons.injEq, and_true]
  omega

theorem htonl_word (a b c d : Nat) (ha : a < 2^8) (hb : b < 2^8) (hc : c < 2^8) (hd : d < 2^8) :
    htonl (readDigits 256 0 [d, c, b, a]) = readDigits 256 0 [a, b, c, d] := by
  have hx := readDigits_four d c b a
  generalize readDigits 256 0 [d, c, b, a] = x at hx
  have h0 : x % 2^8 = a := by omega
  have h1 : x / 2^8 % 2^8 = b := by omega
  have h2 : x / 2^16 % 2^8 = c := by omega
  have h3 : x / 2^24 % 2^8 = d := by omega
  rw [htonl, h0, h1, h2, h3, readDigits_four]

/-- The three words hold four groups of three bytes. -/
theorem wordSextets_eq (a b c d e f g h i j k l : Nat) (ha : a < 2^8) (hb : b < 2^8)
    (hc : c < 2^8) (hd : d < 2^8) (he : e < 2^8) (hf : f < 2^8) (hg : g < 2^8) (hh : h < 2^8)
    (hi : i < 2^8) (hj : j < 2^8) (hk : k < 2^8) (hl : l < 2^8) :
    wordSextets (readDigits 256 0 [a, b, c, d]) (readDigits 256 0 [e, f, g, h])
      (readDigits 256 0 [i, j, k, l]) =
      sextets a b c ++ sextets d e f ++ sextets g h i ++ sextets j k l := by
  rw [sextets_eq a b c ha hb hc, sextets_eq d e f hd he hf, sextets_eq g h i hg hh hi,
    sextets_eq j k l hj hk hl]
  have hx := readDigits_four a b c d
  have hy := readDigits_four e f g h
  have hz := readDigits_four i j k l
  generalize readDigits 256 0 [a, b, c, d] = x at hx
  generalize readDigits 256 0 [e, f, g, h] = y at hy
  generalize readDigits 256 0 [i, j, k, l] = z at hz
  have hy' : y / 2^28 < 2^4 := by omega
  have hz' : z / 2^30 < 2^2 := by omega
  have hx2 : x &&& 0x3 = x % 2^2 := and_mask x 2
  have hy4 : y &&& 0xF = y % 2^4 := and_mask y 4
  have hz6 : z &&& 0x3F = z % 2^6 := and_mask z 6
  simp only [wordSextets, and_mask_shiftRight x 6 20 0x3F00000 rfl,
    and_mask_shiftRight x 6 14 0xFC000 rfl, and_mask_shiftRight x 6 8 0x3F00 rfl,
    and_mask_shiftRight x 6 2 0xFC rfl, and_mask_shiftRight y 6 22 0xFC00000 rfl,
    and_mask_shiftRight y 6 16 0x3F0000 rfl, and_mask_shiftRight y 6 10 0xFC00 rfl,
    and_mask_shiftRight y 6 4 0x3F0 rfl, and_mask_shiftRight z 6 24 0x3F000000 rfl,
    and_mask_shiftRight z 6 18 0xFC0000 rfl, and_mask_shiftRight z 6 12 0x3F000 rfl,
    and_mask_shiftRight z 6 6 0xFC0 rfl, hx2, hy4, hz6, Nat.shiftRight_eq_div_pow,
    shiftLeft_or _ _ _ hy', shiftLeft_or _ _ _ hz', readDigits_three, numeral,
    List.cons_append, List.nil_append,
    List.cons.injEq, and_true]
  refine ⟨?_, ?_, ?_, ?_, ?_, ?_, ?_, ?_, ?_, ?_, ?_, ?_, ?_, ?_, ?_, ?_⟩ <;> omega

theorem word_drop (buffer : View) (j : Nat) (a b c d : UInt8) (rest : Bytes)
    (h : buffer.bytes.drop j = a :: b :: c :: d :: rest) :
    (buffer.word (buffer.addr + j)).map htonl =
      some (readDigits 256 0 [a.toNat, b.toNat, c.toNat, d.toNat]) := by
  rw [word_little buffer j a b c d rest h, Option.map_some,
    htonl_word _ _ _ _ a.toNat_lt b.toNat_lt c.toNat_lt d.toNat_lt]

/-- The first `i` bytes of the input, whole groups, are encoded. -/
structure Encoded (base64url : Bool) (buffer : View) (c : Cursor) (i : Nat) : Prop where
  base : c.base = buffer.addr + i
  le : i ≤ buffer.size
  whole : 3 ∣ i
  length : c.result.length = (buffer.size + 2) / 3 * 4
  out : c.out = i / 3 * 4
  written : c.result.take c.out = rfc4648 base64url (buffer.bytes.take i)

section
variable {base64url : Bool} {buffer : View} {c : Cursor} {i : Nat}

theorem Encoded.start (base64url : Bool) (buffer : View) (result : Bytes)
    (h : result.length = (buffer.size + 2) / 3 * 4) :
    Encoded base64url buffer ⟨buffer.addr, 0, result⟩ 0 := by
  refine ⟨rfl, Nat.zero_le _, Nat.dvd_zero 3, h, rfl, ?_⟩
  simp [rfc4648, base64]

/-- Writing the encoding of the bytes `g` that come next. -/
theorem Encoded.emit (he : Encoded base64url buffer c i) (g rest : Bytes)
    (hg : buffer.bytes.drop i = g ++ rest) (hw : 3 ∣ g.length) :
    ∃ c', c.emit g.length (rfc4648 base64url g) = some c' ∧
      Encoded base64url buffer c' (i + g.length) := by
  have hlen := congrArg List.length hg
  simp only [List.length_drop, List.length_append] at hlen
  have hle : i + g.length ≤ buffer.size := by
    have h := he.le
    simp only [View.size] at h ⊢
    omega
  have henc : (rfc4648 base64url g).length = g.length / 3 * 4 := by
    rw [rfc4648, base64_length]
    omega
  have hi := he.whole
  have hroom : c.out + (rfc4648 base64url g).length ≤ c.result.length := by
    rw [he.out, henc, he.length]
    omega
  have hfits := buffer.fits
  have hbytes : buffer.bytes.take (i + g.length) = buffer.bytes.take i ++ g := by
    rw [List.take_add, hg, List.take_left]
  refine ⟨_, by rw [Cursor.emit, if_pos hroom], ?_, hle, Nat.dvd_add hi hw, ?_, ?_, ?_⟩
  · change sizeT (c.base + g.length) = _
    simp only [View.size] at hle
    rw [he.base, sizeT_of_lt _ (by omega)]
    omega
  · rw [← he.length]
    simp only [List.length_append, List.length_take, List.length_drop]
    omega
  · change c.out + (rfc4648 base64url g).length = _
    rw [he.out, henc]
    omega
  · have htake : (c.result.take c.out).length = c.out := by
      rw [List.length_take]
      omega
    have hi3 : (buffer.bytes.take i).length = 3 * (i / 3) := by
      have h := he.le
      simp only [View.size] at h
      rw [List.length_take]
      omega
    have hfront : (c.result.take c.out ++ rfc4648 base64url g).length =
        c.out + (rfc4648 base64url g).length := by
      rw [List.length_append, htake]
    change (c.result.take c.out ++ rfc4648 base64url g ++ _).take (c.out + _) = _
    rw [← hfront, List.take_left, he.written, hbytes]
    simp only [rfc4648]
    rw [base64_append _ _ (i / 3) _ _ hi3]

theorem drop_next (bs g rest : Bytes) (j : Nat) (h : bs.drop j = g ++ rest) :
    bs.drop (j + g.length) = rest := by
  rw [← List.drop_drop, h, List.drop_left]

theorem lookup_sextets (a b d : UInt8) :
    lookup (encodeTable base64url) (sextets a.toNat b.toNat d.toNat) =
      some (rfc4648 base64url [a, b, d]) := by
  rw [sextets_eq _ _ _ a.toNat_lt b.toNat_lt d.toNat_lt,
    lookup_eq _ _ (numeral_lt 64 4 _ (by decide))]
  simp [rfc4648, base64]

theorem Encoded.encode3 (he : Encoded base64url buffer c i) (hi : i + 3 ≤ buffer.size) :
    ∃ c', encode3 (encodeTable base64url) buffer c = some c' ∧
      Encoded base64url buffer c' (i + 3) := by
  simp only [View.size] at hi
  obtain ⟨a, ha⟩ := drop_one buffer.bytes i (by omega)
  obtain ⟨b, hb⟩ := drop_one buffer.bytes (i + 1) (by omega)
  obtain ⟨d, hd⟩ := drop_one buffer.bytes (i + 2) (by omega)
  have h0 := byte_drop buffer i a _ ha
  have h1 := byte_drop buffer (i + 1) b _ hb
  have h2 := byte_drop buffer (i + 2) d _ hd
  have hdrop : buffer.bytes.drop i = [a, b, d] ++ buffer.bytes.drop (i + 3) := by
    rw [ha, hb, hd]
    rfl
  obtain ⟨c', hc', he'⟩ := he.emit [a, b, d] _ hdrop (Nat.dvd_refl 3)
  refine ⟨c', ?_, he'⟩
  simp only [Base64.encode3, he.base, Nat.add_assoc, h0, h1, h2, lookup_sextets,
    Option.bind_eq_bind, Option.bind_some]
  exact hc'

theorem Encoded.encode3_short (he : Encoded base64url buffer c i) (hi : buffer.size < i + 3) :
    Base64.encode3 (encodeTable base64url) buffer c = none := by
  have hle := he.le
  rw [Base64.encode3, he.base]
  rcases hdrop : buffer.bytes.drop i with _ | ⟨a, _ | ⟨b, _ | ⟨d, rest⟩⟩⟩
  · have hlen := congrArg List.length hdrop
    simp only [List.length_drop, List.length_nil] at hlen
    rw [byte_end buffer i (by simp only [View.size] at hle ⊢; omega)]
    rfl
  · have hlen := congrArg List.length hdrop
    simp only [List.length_drop, List.length_cons, List.length_nil] at hlen
    rw [byte_drop buffer i a _ hdrop, Nat.add_assoc,
      byte_end buffer (i + 1) (by simp only [View.size]; omega)]
    rfl
  · have hlen := congrArg List.length hdrop
    simp only [List.length_drop, List.length_cons, List.length_nil] at hlen
    rw [byte_drop buffer i a _ hdrop, Nat.add_assoc, Nat.add_assoc,
      byte_drop buffer (i + 1) b _ (drop_next _ [a] _ i hdrop),
      byte_end buffer (i + 2) (by simp only [View.size]; omega)]
    rfl
  · have hlen := congrArg List.length hdrop
    simp only [List.length_drop, List.length_cons] at hlen
    simp only [View.size] at hi
    omega

theorem lookup_wordSextets (b0 b1 b2 b3 b4 b5 b6 b7 b8 b9 b10 b11 : UInt8) :
    lookup (encodeTable base64url)
      (wordSextets (readDigits 256 0 [b0.toNat, b1.toNat, b2.toNat, b3.toNat])
        (readDigits 256 0 [b4.toNat, b5.toNat, b6.toNat, b7.toNat])
        (readDigits 256 0 [b8.toNat, b9.toNat, b10.toNat, b11.toNat])) =
      some (rfc4648 base64url [b0, b1, b2, b3, b4, b5, b6, b7, b8, b9, b10, b11]) := by
  rw [wordSextets_eq _ _ _ _ _ _ _ _ _ _ _ _ b0.toNat_lt b1.toNat_lt b2.toNat_lt b3.toNat_lt
    b4.toNat_lt b5.toNat_lt b6.toNat_lt b7.toNat_lt b8.toNat_lt b9.toNat_lt b10.toNat_lt
    b11.toNat_lt]
  rw [sextets_eq _ _ _ b0.toNat_lt b1.toNat_lt b2.toNat_lt,
    sextets_eq _ _ _ b3.toNat_lt b4.toNat_lt b5.toNat_lt,
    sextets_eq _ _ _ b6.toNat_lt b7.toNat_lt b8.toNat_lt,
    sextets_eq _ _ _ b9.toNat_lt b10.toNat_lt b11.toNat_lt]
  rw [lookup_eq]
  · simp [rfc4648, base64]
  · intro d hd
    simp only [List.mem_append] at hd
    rcases hd with ((hd | hd) | hd) | hd <;> exact numeral_lt 64 4 _ (by decide) d hd

theorem Encoded.encode12 (he : Encoded base64url buffer c i) (hi : i + 12 ≤ buffer.size) :
    ∃ c', encode12 (encodeTable base64url) buffer c = some c' ∧
      Encoded base64url buffer c' (i + 12) := by
  simp only [View.size] at hi
  obtain ⟨b0, b1, b2, b3, hfirst⟩ := drop_four buffer.bytes i (by omega)
  obtain ⟨b4, b5, b6, b7, hsecond⟩ := drop_four buffer.bytes (i + 4) (by omega)
  obtain ⟨b8, b9, b10, b11, hthird⟩ := drop_four buffer.bytes (i + 8) (by omega)
  have h0 := word_drop buffer i b0 b1 b2 b3 _ hfirst
  have h1 := word_drop buffer (i + 4) b4 b5 b6 b7 _ hsecond
  have h2 := word_drop buffer (i + 8) b8 b9 b10 b11 _ hthird
  have hdrop : buffer.bytes.drop i =
      [b0, b1, b2, b3, b4, b5, b6, b7, b8, b9, b10, b11] ++ buffer.bytes.drop (i + 12) := by
    rw [hfirst, hsecond, hthird]
    rfl
  obtain ⟨c', hc', he'⟩ := he.emit _ _ hdrop (by decide : 3 ∣ 12)
  refine ⟨c', ?_, he'⟩
  simp only [Base64.encode12, he.base, Nat.add_assoc, h0, h1, h2, lookup_wordSextets,
    Option.bind_eq_bind, Option.bind_some]
  exact hc'

theorem Encoded.encode12_short (he : Encoded base64url buffer c i) (hi : buffer.size < i + 12) :
    Base64.encode12 (encodeTable base64url) buffer c = none := by
  have hle := he.le
  rw [Base64.encode12, he.base, Nat.add_assoc, Nat.add_assoc]
  by_cases h4 : buffer.size < i + 4
  · rw [word_short buffer i hle h4]
    rfl
  · have hsome (o : Option Nat) (f : Nat → Option Cursor) (hf : ∀ x, f x = none) :
        o.bind f = none := by
      cases o <;> simp [hf]
    apply hsome
    intro in1
    by_cases h8 : buffer.size < i + 8
    · rw [word_short buffer (i + 4) (by omega) h8]
      rfl
    · apply hsome
      intro in2
      rw [word_short buffer (i + 8) (by omega) hi]
      rfl

/-- A loop body that encodes the next `w` bytes, if the input has that many. -/
structure Stride (base64url : Bool) (buffer : View) (body : Cursor → Option Cursor) (w : Nat) :
    Prop where
  pos : 0 < w
  pass : ∀ c i, Encoded base64url buffer c i → i + w ≤ buffer.size →
    ∃ c', body c = some c' ∧ Encoded base64url buffer c' (i + w)
  short : ∀ c i, Encoded base64url buffer c i → buffer.size < i + w → body c = none

theorem encode3_stride (base64url : Bool) (buffer : View) :
    Stride base64url buffer (Base64.encode3 (encodeTable base64url) buffer) 3 :=
  ⟨by decide, fun _ _ he hi => he.encode3 hi, fun _ _ he hi => he.encode3_short hi⟩

theorem encode12_stride (base64url : Bool) (buffer : View) :
    Stride base64url buffer (Base64.encode12 (encodeTable base64url) buffer) 12 :=
  ⟨by decide, fun _ _ he hi => he.encode12 hi, fun _ _ he hi => he.encode12_short hi⟩

section
variable {body : Cursor → Option Cursor} {w : Nat}

/-- A loop whose `k` passes find their bytes encodes them all. -/
theorem loop_done (hbody : Stride base64url buffer body w) (stop k fuel : Nat)
    (he : Encoded base64url buffer c i) (hend : i + w * k ≤ buffer.size)
    (hstop : stop ≤ buffer.addr + i + w * k)
    (hlast : k = 0 ∨ buffer.addr + i + w * k < stop + w) (hfuel : buffer.size - i < fuel) :
    ∃ c', loop body stop fuel c = some c' ∧ Encoded base64url buffer c' (i + w * k) := by
  have hw := hbody.pos
  induction k generalizing c i fuel with
  | zero =>
    obtain ⟨fuel, rfl⟩ : ∃ n, fuel = n + 1 := ⟨fuel - 1, by omega⟩
    refine ⟨c, ?_, he⟩
    rw [loop, if_neg]
    rw [he.base]
    omega
  | succ k ih =>
    obtain ⟨fuel, rfl⟩ : ∃ n, fuel = n + 1 := ⟨fuel - 1, by omega⟩
    rw [Nat.mul_succ] at hend hstop hlast
    have hbelow : c.base < stop := by
      rw [he.base]
      omega
    obtain ⟨c1, hc1, he1⟩ := hbody.pass c i he (by omega)
    obtain ⟨c', hc', he'⟩ := ih fuel he1 (by omega) (by omega) (by omega) (by omega)
    refine ⟨c', ?_, ?_⟩
    · rw [loop, if_pos hbelow, hc1, Option.bind_some]
      exact hc'
    · rw [Nat.mul_succ, Nat.add_comm (w * k) w, ← Nat.add_assoc]
      exact he'

/-- A loop with a pass that does not find its bytes fails there. -/
theorem loop_overrun (hbody : Stride base64url buffer body w) (stop k fuel : Nat)
    (he : Encoded base64url buffer c i) (hend : buffer.size < i + w * k)
    (hlast : buffer.addr + i + w * k < stop + w) : loop body stop fuel c = none := by
  have hw := hbody.pos
  induction fuel generalizing c i k with
  | zero => rfl
  | succ fuel ih =>
    obtain ⟨k, rfl⟩ : ∃ n, k = n + 1 := by
      refine ⟨k - 1, ?_⟩
      have hk : k ≠ 0 := by
        rintro rfl
        have hle := he.le
        omega
      omega
    rw [Nat.mul_succ] at hend hlast
    have hbelow : c.base < stop := by
      rw [he.base]
      omega
    rw [loop, if_pos hbelow]
    by_cases hi : i + w ≤ buffer.size
    · obtain ⟨c1, hc1, he1⟩ := hbody.pass c i he hi
      rw [hc1, Option.bind_some]
      exact ih k he1 (by omega) (by omega)
    · rw [hbody.short c i he (by omega)]
      rfl

end

/-- The tail encodes the one or two bytes that are left. -/
theorem Encoded.encodeTail (he : Encoded base64url buffer c i) (left : Nat)
    (hleft : left = buffer.size - i) (hlt : left < 3) :
    ∃ c', encodeTail (encodeTable base64url) buffer left c = some c' ∧
      c'.result = rfc4648 base64url buffer.bytes := by
  have hle := he.le
  have hwhole := he.whole
  have hlen : (buffer.bytes.drop i).length = left := by
    rw [List.length_drop, hleft]
    rfl
  have hi3 : (buffer.bytes.take i).length = 3 * (i / 3) := by
    simp only [View.size] at hle
    rw [List.length_take]
    omega
  have hbytes : rfc4648 base64url buffer.bytes =
      rfc4648 base64url (buffer.bytes.take i) ++ rfc4648 base64url (buffer.bytes.drop i) := by
    rw [rfc4648, rfc4648, rfc4648, ← base64_append _ _ (i / 3) _ _ hi3, List.take_append_drop]
  have hout := he.out
  have hlength := he.length
  -- what is left of the result is exactly one group of four
  have hgroup (enc : Bytes) (henc : enc.length = 4) (hpos : 0 < left)
      (hg : rfc4648 base64url (buffer.bytes.drop i) = enc) :
      ∃ c', c.emit 0 enc = some c' ∧ c'.result = rfc4648 base64url buffer.bytes := by
    refine ⟨_, by rw [Cursor.emit, if_pos (by omega)], ?_⟩
    change c.result.take c.out ++ enc ++ c.result.drop (c.out + enc.length) = _
    rw [List.drop_eq_nil_of_le (by omega), List.append_nil, he.written, hbytes, hg]
  rcases hdrop : buffer.bytes.drop i with _ | ⟨a, _ | ⟨b, _ | ⟨d, rest⟩⟩⟩
  · rw [hdrop] at hlen hbytes
    obtain rfl : left = 0 := hlen.symm
    refine ⟨c, rfl, ?_⟩
    rw [hbytes, ← he.written, List.take_of_length_le (by omega)]
    simp [rfc4648, base64]
  · rw [hdrop] at hlen
    obtain rfl : left = 1 := hlen.symm
    have h0 := byte_drop buffer i a _ hdrop
    have hlook : lookup (encodeTable base64url) ((sextets a.toNat 0 0).take 2) =
        some (((sextets a.toNat 0 0).take 2).map (rfc4648Char base64url)) := by
      apply lookup_eq
      intro d hd
      rw [sextets_eq _ 0 0 a.toNat_lt (by decide) (by decide)] at hd
      exact numeral_lt 64 4 _ (by decide) d (List.mem_of_mem_take hd)
    simp only [Base64.encodeTail, he.base, h0, hlook, Option.bind_eq_bind, Option.bind_some]
    apply hgroup _ rfl (by decide)
    rw [hdrop, sextets_eq _ 0 0 a.toNat_lt (by decide) (by decide), readDigits_three]
    simp only [rfc4648, base64, numeral, readDigits, List.foldl, List.take, List.map_cons,
      List.map_nil, List.cons_append, List.nil_append, List.cons.injEq, and_true]
    constructor <;> congr 1 <;> omega
  · rw [hdrop] at hlen
    obtain rfl : left = 2 := hlen.symm
    have h0 := byte_drop buffer i a _ hdrop
    have h1 := byte_drop buffer (i + 1) b _ (drop_next _ [a] _ i hdrop)
    have hlook : lookup (encodeTable base64url) ((sextets a.toNat b.toNat 0).take 3) =
        some (((sextets a.toNat b.toNat 0).take 3).map (rfc4648Char base64url)) := by
      apply lookup_eq
      intro d hd
      rw [sextets_eq _ _ 0 a.toNat_lt b.toNat_lt (by decide)] at hd
      exact numeral_lt 64 4 _ (by decide) d (List.mem_of_mem_take hd)
    simp only [Base64.encodeTail, he.base, Nat.add_assoc, h0, h1, hlook, Option.bind_eq_bind,
      Option.bind_some]
    apply hgroup _ rfl (by decide)
    rw [hdrop, sextets_eq _ _ 0 a.toNat_lt b.toNat_lt (by decide), readDigits_three]
    simp only [rfc4648, base64, numeral, readDigits, List.foldl, List.take, List.map_cons,
      List.map_nil, List.cons_append, List.nil_append, List.cons.injEq, and_true]
    refine ⟨?_, ?_, ?_⟩ <;> congr 1 <;> omega
  · rw [hdrop] at hlen
    simp only [List.length_cons] at hlen
    omega

end

/-- The words do not reach beyond the input, and two bytes before its end there is an address. -/
def Encodable (buffer : View) : Prop :=
  (buffer.size < 12 ∨ 3 * (buffer.addr % 4) ≤ buffer.size % 12) ∧ 2 ≤ buffer.addr + buffer.size

instance (buffer : View) : Decidable (Encodable buffer) :=
  inferInstanceAs (Decidable ((buffer.size < 12 ∨ 3 * (buffer.addr % 4) ≤ buffer.size % 12) ∧
    2 ≤ buffer.addr + buffer.size))

section
variable (base64url : Bool) (buffer : View)

/-- The prefix loop moves on by three times the offset, to an aligned address. -/
theorem prefix_done (c : Cursor) (he : Encoded base64url buffer c 0) (h12 : 12 ≤ buffer.size) :
    ∃ c', encodePrefix (encodeTable base64url) buffer c = some c' ∧
      Encoded base64url buffer c' (3 * (buffer.addr % 4)) := by
  have hbase : c.base = buffer.addr := he.base
  have hmask : c.base &&& 3 = buffer.addr % 4 := by
    rw [hbase]
    exact and_mask buffer.addr 2
  have hfits := buffer.fits
  have hsize : buffer.size = buffer.bytes.length := rfl
  rw [encodePrefix, hmask]
  by_cases hz : buffer.addr % 4 = 0
  · refine ⟨c, by simp [hz], ?_⟩
    rw [hz]
    exact he
  · have hstop : sizeT (c.base + 3 * (buffer.addr % 4)) = buffer.addr + 3 * (buffer.addr % 4) := by
      rw [hbase]
      exact sizeT_of_lt _ (by omega)
    obtain ⟨c', hc', he'⟩ := loop_done (encode3_stride base64url buffer)
      (buffer.addr + 3 * (buffer.addr % 4)) (buffer.addr % 4) (buffer.size + 1) he (by omega)
      (by omega) (by omega) (by omega)
    rw [Nat.zero_add] at he'
    rw [if_pos hz, hstop]
    exact ⟨c', hc', he'⟩

theorem words_stop (c : Cursor) (i : Nat) (he : Encoded base64url buffer c i)
    (h12 : 12 ≤ buffer.size) (hi : i ≤ 9) :
    subSizeT (sizeT (c.base + buffer.size)) 11 = buffer.addr + i + (buffer.size - 11) := by
  have hfits := buffer.fits
  have hsize : buffer.size = buffer.bytes.length := rfl
  rw [he.base]
  simp only [subSizeT, sizeT]
  omega

theorem words_done (c : Cursor) (he : Encoded base64url buffer c 0)
    (h : buffer.size < 12 ∨ 3 * (buffer.addr % 4) ≤ buffer.size % 12) :
    ∃ c' i, encodeWords (encodeTable base64url) buffer c = some c' ∧
      Encoded base64url buffer c' i := by
  by_cases h12 : 12 ≤ buffer.size
  · obtain ⟨c1, hc1, he1⟩ := prefix_done base64url buffer c he h12
    obtain ⟨c2, hc2, he2⟩ := loop_done (encode12_stride base64url buffer)
      (buffer.addr + 3 * (buffer.addr % 4) + (buffer.size - 11)) (buffer.size / 12)
      (buffer.size + 1) he1 (by omega) (by omega) (by omega) (by omega)
    refine ⟨c2, _, ?_, he2⟩
    rw [encodeWords, if_pos h12, hc1, Option.bind_eq_bind, Option.bind_some,
      words_stop base64url buffer c1 _ he1 h12 (by omega)]
    exact hc2
  · exact ⟨c, 0, by rw [encodeWords, if_neg h12], he⟩

theorem words_overrun (c : Cursor) (he : Encoded base64url buffer c 0) (h12 : 12 ≤ buffer.size)
    (hover : buffer.size % 12 < 3 * (buffer.addr % 4)) :
    encodeWords (encodeTable base64url) buffer c = none := by
  obtain ⟨c1, hc1, he1⟩ := prefix_done base64url buffer c he h12
  have hloop := loop_overrun (encode12_stride base64url buffer)
    (buffer.addr + 3 * (buffer.addr % 4) + (buffer.size - 11)) (buffer.size / 12)
    (buffer.size + 1) he1 (by omega) (by omega)
  rw [encodeWords, if_pos h12, hc1, Option.bind_eq_bind, Option.bind_some,
    words_stop base64url buffer c1 _ he1 h12 (by omega)]
  exact hloop

theorem encodeTo_done (result : Bytes) (hlen : result.length = (buffer.size + 2) / 3 * 4)
    (h : Encodable buffer) :
    encodeTo (encodeTable base64url) buffer result = some (rfc4648 base64url buffer.bytes) := by
  obtain ⟨hwords, htwo⟩ := h
  have hfits := buffer.fits
  have hsize : buffer.size = buffer.bytes.length := rfl
  have hend : sizeT (buffer.addr + buffer.size) = buffer.addr + buffer.size :=
    sizeT_of_lt _ (by omega)
  have hstop : subSizeT (buffer.addr + buffer.size) 2 = buffer.addr + buffer.size - 2 := by
    simp only [subSizeT, sizeT]
    omega
  obtain ⟨c1, i, hc1, he1⟩ := words_done base64url buffer _
    (Encoded.start base64url buffer result hlen) hwords
  have hle := he1.le
  obtain ⟨c2, hc2, he2⟩ := loop_done (encode3_stride base64url buffer)
    (buffer.addr + buffer.size - 2) ((buffer.size - i) / 3) (buffer.size + 1) he1 (by omega)
    (by omega) (by omega) (by omega)
  have hle2 := he2.le
  have hleft : subSizeT (buffer.addr + buffer.size) c2.base % 2^8 =
      buffer.size - (i + 3 * ((buffer.size - i) / 3)) := by
    rw [he2.base]
    simp only [subSizeT, sizeT]
    omega
  obtain ⟨c3, hc3, hres⟩ := he2.encodeTail _ rfl (by omega)
  simp only [encodeTo, hend, hstop, hc1, hc2, hleft, hc3, hres, Option.bind_eq_bind,
    Option.bind_some, Option.pure_def]

theorem encodeTo_overrun (result : Bytes) (hlen : result.length = (buffer.size + 2) / 3 * 4)
    (h : ¬ Encodable buffer) : encodeTo (encodeTable base64url) buffer result = none := by
  have hfits := buffer.fits
  have hsize : buffer.size = buffer.bytes.length := rfl
  have he := Encoded.start base64url buffer result hlen
  by_cases h12 : 12 ≤ buffer.size
  · have hover : buffer.size % 12 < 3 * (buffer.addr % 4) := by
      by_contra hle
      exact h ⟨.inr (by omega), by omega⟩
    simp only [encodeTo, words_overrun base64url buffer _ he h12 hover, Option.bind_eq_bind,
      Option.bind_none]
  · have htwo : buffer.addr + buffer.size < 2 := by
      by_contra hge
      exact h ⟨.inl (by omega), by omega⟩
    obtain ⟨stop, hstop⟩ : ∃ stop, stop = subSizeT (sizeT (buffer.addr + buffer.size)) 2 := ⟨_, rfl⟩
    -- two bytes before the end is the other end of the address space
    have hwrap : stop = buffer.addr + buffer.size + (2^64 - 2) := by
      rw [hstop]
      simp only [subSizeT, sizeT]
      omega
    obtain ⟨k, hk⟩ : ∃ k, k = (buffer.size + (2^64 - 2) + 2) / 3 := ⟨_, rfl⟩
    have hloop := loop_overrun (encode3_stride base64url buffer) stop k (buffer.size + 1) he
      (by omega) (by omega)
    simp only [encodeTo, encodeWords, if_neg h12, ← hstop, hloop, Option.bind_eq_bind,
      Option.bind_some, Option.bind_none]

end

/-- The result of `encode` is what is written to the memory of the result buffer. -/
theorem encode_eq (malloc : Malloc) (buffer : View) (base64url : Bool) (bs : Bytes)
    (hserve : malloc.serve 0 (max 16 ((buffer.size + 2) / 3 * 4)) = some bs) :
    ∃ result : Bytes, result.length = (buffer.size + 2) / 3 * 4 ∧
      encode malloc buffer base64url =
        defined (encodeTo (encodeTable base64url) buffer result) := by
  have hlt := buffer.length_lt
  have hsize : sizeT (sizeT (buffer.size + 2) / 3 * 4) = (buffer.size + 2) / 3 * 4 := by
    simp only [View.size, sizeT]
    omega
  obtain ⟨hlen, -⟩ := malloc.served _ _ _ hserve
  refine ⟨bs.take ((buffer.size + 2) / 3 * 4), ?_, ?_⟩
  · rw [List.length_take]
    omega
  · rw [encode, hsize, setSize_fresh malloc _ bs hserve]
    have hread : (owned bs ((buffer.size + 2) / 3 * 4)).heap.read (some ⟨0, 0⟩)
        ((buffer.size + 2) / 3 * 4) = some (bs.take ((buffer.size + 2) / 3 * 4)) := by
      rw [Heap.read, if_pos]
      · rfl
      · exact ⟨_, rfl, rfl, by simp only; omega⟩
    change defined (Heap.read _ _ _) >>= _ = _
    rw [hread]
    rfl

/-- `encode` returns the encoding of RFC 4648, with every read inside of the input and every
write inside of the result, if and only if the words do not reach beyond the input and two bytes
before its end there is an address. -/
theorem encode_iff (malloc : Malloc) (buffer : View) (base64url : Bool) (bs : Bytes)
    (hserve : malloc.serve 0 (max 16 ((buffer.size + 2) / 3 * 4)) = some bs) :
    encode malloc buffer base64url = .ok (rfc4648 base64url buffer.bytes) ↔
      (buffer.size < 12 ∨ 3 * (buffer.addr % 4) ≤ buffer.size % 12) ∧
        2 ≤ buffer.addr + buffer.size := by
  obtain ⟨result, hlen, heq⟩ := encode_eq malloc buffer base64url bs hserve
  change _ ↔ Encodable buffer
  rw [heq]
  by_cases h : Encodable buffer
  · rw [encodeTo_done base64url buffer result hlen h]
    exact iff_of_true rfl h
  · rw [encodeTo_overrun base64url buffer result hlen h]
    exact iff_of_false (fun he => by cases he) h

/-- `abcdefghijklmno` at an odd address: three bytes up to the first word, and three words. -/
def unaligned : View :=
  ⟨⟨[97, 98, 99, 100, 101, 102, 103, 104, 105, 106, 107, 108, 109, 110, 111], by decide⟩, 4097,
    by decide⟩

/-- `YWJjZGVmZ2hpamtsbW5v` -/
theorem encode_iff_unaligned : encode .zeroed unaligned false =
    .ok [89, 87, 74, 106, 90, 71, 86, 109, 90, 50, 104, 112, 97, 109, 116, 115, 98, 87, 53, 118] := by
  have hserve : Malloc.zeroed.serve 0 (max 16 ((unaligned.size + 2) / 3 * 4)) =
      some (List.replicate 20 0) := by decide
  have h := (encode_iff .zeroed unaligned false _ hserve).mpr (by decide)
  have hvalue : rfc4648 false unaligned.bytes =
      [89, 87, 74, 106, 90, 71, 86, 109, 90, 50, 104, 112, 97, 109, 116, 115, 98, 87, 53, 118] := by
    decide +kernel
  rw [h, hvalue]

/-- Twelve bytes at an odd address: the words are read up to three bytes beyond them. -/
theorem encode_reads_beyond :
    encode .zeroed ⟨⟨List.replicate 12 0, by decide⟩, 4097, by decide⟩ false ≠
      .ok (rfc4648 false (List.replicate 12 0)) := by
  decide

end Libnodecc.Util.Base64
