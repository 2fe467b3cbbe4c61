import Libnodecc.Util.Base64Encode
import Libnodecc.Util.DecodeSextets

namespace Libnodecc.Util.Base64

open Buffer

section
variable (base64url : Bool) (bs : Bytes)

theorem alphabetValue_char (d : Nat) (hd : d < 64) :
    alphabetValue (rfc4648Char base64url d) = some d := by
  revert d
  cases base64url <;> decide

theorem alphabetValue_pad : alphabetValue equalsSign = none := by decide

theorem values_rfc4648 : unbase64 (values (rfc4648 base64url bs)) = bs :=
  unbase64_base64 _ _ _ (alphabetValue_char base64url) alphabetValue_pad bs

theorem rfc4648_ascii : ∀ b ∈ rfc4648 base64url bs, b.toNat < 128 := by
  intro b hb
  rcases base64_mem _ _ bs b hb with ⟨d, hd, rfl⟩ | rfl
  · exact alphabet_ascii _ (by rw [alphabetValue_char base64url d hd]; rfl)
  · decide

theorem rfc4648_length : (rfc4648 base64url bs).length = (bs.length + 2) / 3 * 4 :=
  base64_length _ _ bs

theorem values_before (j : Nat) (hj : j < (bs.length + 2) / 3) :
    (values ((rfc4648 base64url bs).take (4 * j))).length = 4 * j := by
  have hfront : (bs.take (3 * j)).length = 3 * j := by
    rw [List.length_take]
    omega
  have hcode : (rfc4648 base64url (bs.take (3 * j))).length = 4 * j := by
    rw [rfc4648_length, hfront]
    omega
  have hsplit : rfc4648 base64url bs =
      rfc4648 base64url (bs.take (3 * j)) ++ rfc4648 base64url (bs.drop (3 * j)) := by
    rw [rfc4648, rfc4648, rfc4648, ← base64_append _ _ j _ _ hfront, List.take_append_drop]
  rw [hsplit, List.take_left' hcode]
  exact filterMap_base64_length _ _ _ (alphabetValue_char base64url) alphabetValue_pad _ j hfront

end

theorem decodable_rfc4648 (base64url : Bool) (bs : Bytes) (hbs : bs ≠ []) (buffer : View)
    (hbuffer : buffer.bytes = rfc4648 base64url bs) : Decodable buffer := by
  have hlen : buffer.bytes.length = buffer.size := rfl
  have hpos := List.length_pos_iff.mpr hbs
  have hcode := rfc4648_length base64url bs
  rw [← hbuffer, hlen] at hcode
  have hrest : rest buffer.bytes = [] := by
    rw [rest, hlen]
    exact List.drop_eq_nil_of_le (by omega)
  refine ⟨by omega, ?_, ?_, ?_, ?_⟩
  · rintro ⟨less, pending, hshape, hover⟩
    obtain ⟨-, -, hpending⟩ := shape_tally hshape
    rw [hrest] at hover
    change _ < _ + (pending + 0 - 1) at hover
    omega
  · intro j _ b hb
    have hmem : b ∈ buffer.bytes := List.mem_of_mem_drop (List.mem_of_mem_take hb)
    rw [hbuffer] at hmem
    exact rfc4648_ascii base64url bs b hmem
  · intro j hj
    right
    have hbefore := values_before base64url bs j (by omega)
    have hgroup := values_group_length_le buffer.bytes j
    rw [hbuffer] at hgroup ⊢
    omega
  · exact Or.inl (by rw [hrest]; rfl)

/-- What is encoded from aligned memory is decoded again, from any address, if there is memory for
both results. -/
theorem decode_encode (malloc : Malloc) (x : View) (base64url : Bool) (hx : x.bytes ≠ [])
    (haligned : x.addr % 4 = 0) (hnull : x.addr ≠ 0) (room : Bytes)
    (hserve : malloc.serve 0 (max 16 ((x.size + 2) / 3 * 4)) = some room) :
    ∃ e, encode malloc x base64url = .ok e ∧
      ∀ (malloc' : Malloc) (y : View), y.bytes = e → ¬Refuses malloc' →
        decode malloc' y = .ok x.bytes := by
  have hlt := x.length_lt
  have hlen : x.bytes.length = x.size := rfl
  have hpos := List.length_pos_iff.mpr hx
  refine ⟨rfc4648 base64url x.bytes, ?_, fun malloc' y hy hserves => ?_⟩
  · obtain ⟨result, hresult, heq⟩ := encode_eq malloc x base64url room hserve
    rw [heq, encodeTo_done base64url x result hresult ⟨by omega, by omega⟩]
    rfl
  · have hdecodes := decodes_of_decodable y (decodable_rfc4648 base64url x.bytes hx y hy) malloc'
    rw [hy, values_rfc4648] at hdecodes
    exact hdecodes.resolve_right fun hbad => hserves hbad.1

/-- `abcdefghijklmn` at an aligned address: three words, two bytes behind them, and padding. -/
def aligned : View :=
  ⟨⟨[97, 98, 99, 100, 101, 102, 103, 104, 105, 106, 107, 108, 109, 110], by decide⟩, 4096, by decide⟩

/-- `YWJjZGVmZ2hpamtsbW4=` -/
def alignedCode : Bytes :=
  [89, 87, 74, 106, 90, 71, 86, 109, 90, 50, 104, 112, 97, 109, 116, 115, 98, 87, 52, 61]

theorem decode_encode_aligned : encode .zeroed aligned false = .ok alignedCode ∧
    decode .zeroed ⟨⟨alignedCode, by decide⟩, 4097, by decide⟩ =
      .ok [97, 98, 99, 100, 101, 102, 103, 104, 105, 106, 107, 108, 109, 110] := by
  have hserve : Malloc.zeroed.serve 0 (max 16 ((aligned.size + 2) / 3 * 4)) =
      some (List.replicate 20 0) := by decide
  have henc : encode .zeroed aligned false = .ok alignedCode := by decide +kernel
  obtain ⟨e, he, hback⟩ := decode_encode .zeroed aligned false (by decide) (by decide) (by decide)
    _ hserve
  obtain rfl := Except.ok.inj (he.symm.trans henc)
  exact ⟨he, hback .zeroed ⟨⟨alignedCode, by decide⟩, 4097, by decide⟩ rfl zeroed_serves⟩

end Libnodecc.Util.Base64
