import Libnodecc.Util.Base64

namespace Libnodecc.Util.Base64

open Buffer

theorem load_at (buffer : View) (j n : Nat) (hj : j ≤ buffer.size) :
    buffer.load (buffer.addr + j) n =
      if j + n ≤ buffer.size then some ((buffer.bytes.drop j).take n) else none := by
  have hfits := buffer.fits
  have hlt : buffer.addr + j < 2^64 := by
    simp only [View.size] at hj
    omega
  have hinside : buffer.addr ≤ buffer.addr + j ∧ buffer.addr + j + n ≤ buffer.addr + buffer.size ↔
      j + n ≤ buffer.size := by omega
  simp only [View.load, sizeT_of_lt _ hlt, hinside, Nat.add_sub_cancel_left]

theorem drop_one (bs : Bytes) (j : Nat) (hj : j < bs.length) :
    ∃ a, bs.drop j = a :: bs.drop (j + 1) :=
  ⟨bs[j], List.drop_eq_getElem_cons hj⟩

theorem drop_four (bs : Bytes) (j : Nat) (hj : j + 4 ≤ bs.length) :
    ∃ a b c d, bs.drop j = a :: b :: c :: d :: bs.drop (j + 4) := by
  obtain ⟨a, ha⟩ := drop_one bs j (by omega)
  obtain ⟨b, hb⟩ := drop_one bs (j + 1) (by omega)
  obtain ⟨c, hc⟩ := drop_one bs (j + 2) (by omega)
  obtain ⟨d, hd⟩ := drop_one bs (j + 3) (by omega)
  exact ⟨a, b, c, d, by rw [ha, hb, hc, hd]⟩

theorem byte_drop (buffer : View) (j : Nat) (a : UInt8) (rest : Bytes)
    (h : buffer.bytes.drop j = a :: rest) : buffer.byte (buffer.addr + j) = some a.toNat := by
  have hlen := congrArg List.length h
  simp only [List.length_drop, List.length_cons] at hlen
  have hj : j + 1 ≤ buffer.size := by
    simp only [View.size]
    omega
  rw [View.byte, load_at buffer j 1 (by omega), if_pos hj, h]
  simp [readDigits]

theorem byte_end (buffer : View) (j : Nat) (hj : j = buffer.size) :
    buffer.byte (buffer.addr + j) = none := by
  rw [View.byte, load_at buffer j 1 hj.le, if_neg (by omega)]
  rfl

theorem word_little (buffer : View) (j : Nat) (a b c d : UInt8) (rest : Bytes)
    (h : buffer.bytes.drop j = a :: b :: c :: d :: rest) :
    buffer.word (buffer.addr + j) =
      some (readDigits 256 0 [d.toNat, c.toNat, b.toNat, a.toNat]) := by
  have hlen := congrArg List.length h
  simp only [List.length_drop, List.length_cons] at hlen
  have hj : j + 4 ≤ buffer.size := by
    simp only [View.size]
    omega
  rw [View.word, load_at buffer j 4 (by omega), if_pos hj, h]
  rfl

theorem word_short (buffer : View) (j : Nat) (hj : j ≤ buffer.size) (hlt : buffer.size < j + 4) :
    buffer.word (buffer.addr + j) = none := by
  rw [View.word, load_at buffer j 4 hj, if_neg (by omega)]
  rfl

end Libnodecc.Util.Base64
