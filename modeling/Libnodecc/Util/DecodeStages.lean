import Libnodecc.Framework.Base64
import Libnodecc.Util.Base64Decode
import Libnodecc.Util.ViewSpecs

namespace Libnodecc.Util.Base64

open Buffer Decoder

def tableValue (b : UInt8) : Nat := decodeTable.getD b.toNat 0

/-- The sextets that `shift6` takes from bytes. -/
def taken (bs : Bytes) : List Nat := (bs.map tableValue).filter fun n => n ≤ 0x3F

def group (bs : Bytes) (j : Nat) : Bytes := (bs.drop (4 * j)).take 4

def rest (bs : Bytes) : Bytes := bs.drop (bs.length / 4 * 4)

structure Stage where
  r : Nat
  ri : Nat
  bytes : Bytes

namespace Stage

def shift (g : Stage) (n : Nat) : Stage :=
  { g with r := (g.r * 64 + n) % 2^32, ri := (g.ri + 1) % 2^8 }

def take (g : Stage) (ns : List Nat) : Stage := ns.foldl shift g

def kept : Nat → Nat
  | 2 => 1
  | 3 => 1
  | 4 => 0
  | ri => ri

def flush (g : Stage) : Stage where
  r := g.r
  ri := kept g.ri
  bytes := g.bytes ++ registerBytes g.r g.ri

theorem take_append (g : Stage) (ns ms : List Nat) : g.take (ns ++ ms) = (g.take ns).take ms :=
  List.foldl_append ..

@[simp] theorem take_bytes (g : Stage) (ns : List Nat) : (g.take ns).bytes = g.bytes := by
  induction ns generalizing g with
  | nil => rfl
  | cons n ns ih => exact ih (g.shift n)

theorem take_ri (g : Stage) (ns : List Nat) (hri : g.ri < 2^8) :
    (g.take ns).ri = (g.ri + ns.length) % 2^8 := by
  induction ns generalizing g with
  | nil => exact (Nat.mod_eq_of_lt hri).symm
  | cons n ns ih =>
    have hlt : (g.ri + 1) % 2^8 < 2^8 := Nat.mod_lt _ (by decide)
    have h := ih (g.shift n) hlt
    change (Stage.take (g.shift n) ns).ri = _
    rw [h, List.length_cons]
    simp only [shift]
    omega

/-- Sextets are digits of the register's value, whose highest bits get lost. -/
theorem take_r (g : Stage) (ns : List Nat) (hr : g.r < 2^32) :
    (g.take ns).r = readDigits 64 g.r ns % 2^32 := by
  suffices h : ∀ v, v % 2^32 = g.r % 2^32 → (g.take ns).r % 2^32 = readDigits 64 v ns % 2^32 by
    have hlt : (g.take ns).r < 2^32 := by
      cases ns using List.reverseRecOn with
      | nil => exact hr
      | append_singleton ns n =>
        rw [take_append]
        exact Nat.mod_lt _ (by decide)
    rw [← h g.r rfl, Nat.mod_eq_of_lt hlt]
  induction ns generalizing g with
  | nil =>
    intro v hv
    exact hv.symm
  | cons n ns ih =>
    intro v hv
    refine ih (g.shift n) (Nat.mod_lt _ (by decide)) (v * 64 + n) ?_
    simp only [shift]
    omega

theorem flush_ri_lt (g : Stage) (hri : g.ri < 2^8) : g.flush.ri < 2^8 := by
  simp only [flush]
  unfold kept
  split <;> omega

end Stage

/-- After `j` groups. -/
def stage (bs : Bytes) : Nat → Stage
  | 0 => ⟨0, 0, []⟩
  | j + 1 => ((stage bs j).take (taken (group bs j))).flush

def lastStage (bs : Bytes) : Stage := (stage bs (bs.length / 4)).take (taken (rest bs))

theorem registerBytes_length (r ri : Nat) :
    (registerBytes r ri).length = if 2 ≤ ri ∧ ri ≤ 4 then ri - 1 else 0 := by
  match ri with
  | 0 => rfl
  | 1 => rfl
  | 2 => rfl
  | 3 => rfl
  | 4 => rfl
  | ri + 5 =>
    rw [if_neg (by omega)]
    rfl

theorem registerBytes_length_le (r ri : Nat) : (registerBytes r ri).length ≤ 3 := by
  rw [registerBytes_length]
  split <;> omega

theorem stage_bounds (bs : Bytes) (j : Nat) :
    (stage bs j).ri < 2^8 ∧ (stage bs j).r < 2^32 ∧ (stage bs j).bytes.length ≤ 3 * j := by
  induction j with
  | zero => simp [stage]
  | succ j ih =>
    obtain ⟨hri, hr, hlen⟩ := ih
    have hri' : ((stage bs j).take (taken (group bs j))).ri < 2^8 := by
      rw [Stage.take_ri _ _ hri]
      exact Nat.mod_lt _ (by decide)
    have hr' : ((stage bs j).take (taken (group bs j))).r < 2^32 := by
      rw [Stage.take_r _ _ hr]
      exact Nat.mod_lt _ (by decide)
    refine ⟨Stage.flush_ri_lt _ hri', hr', ?_⟩
    have hadd := registerBytes_length_le ((stage bs j).take (taken (group bs j))).r
      ((stage bs j).take (taken (group bs j))).ri
    simp only [stage, Stage.flush, List.length_append, Stage.take_bytes]
    omega

theorem tableValue_eq (b : UInt8) : decodeTable[b.toNat]? = some (tableValue b) := by
  have hlen : decodeTable.length = 256 := by decide +kernel
  have hlt : b.toNat < decodeTable.length := hlen ▸ b.toNat_lt
  rw [tableValue, List.getD_eq_getElem?_getD, List.getElem?_eq_getElem hlt, Option.getD_some]

theorem decodeAt_drop (buffer : View) (j : Nat) (b : UInt8) (bs : Bytes)
    (h : buffer.bytes.drop j = b :: bs) :
    decodeAt buffer (buffer.addr + j) = some (tableValue b) := by
  rw [decodeAt, byte_drop buffer j b bs h]
  exact tableValue_eq b

theorem decodeAt_end (buffer : View) (j : Nat) (hj : j = buffer.size) :
    decodeAt buffer (buffer.addr + j) = none := by
  rw [decodeAt, byte_end buffer j hj]
  rfl

/-- The sextets that are taken are those `shift6` does not skip. -/
def Stage.offer (g : Stage) (n : Nat) : Stage := if n ≤ 0x3F then g.shift n else g

theorem take_taken (g : Stage) (bs : Bytes) :
    g.take (taken bs) = bs.foldl (fun g b => g.offer (tableValue b)) g := by
  induction bs generalizing g with
  | nil => rfl
  | cons b bs ih =>
    rw [List.foldl_cons, ← ih]
    by_cases hb : tableValue b ≤ 0x3F
    · simp [taken, hb, Stage.offer, Stage.take]
    · simp [taken, hb, Stage.offer]

/-- A decoder that has read `n` bytes and is at stage `g`. -/
structure Reached (buffer : View) (room : Bytes) (g : Stage) (n : Nat) (s : Decoder) : Prop where
  base : s.base = buffer.addr + n
  r : s.r = g.r
  ri : s.ri = g.ri
  out : s.out = g.bytes.length
  fits : g.bytes.length ≤ room.length
  result : s.result = g.bytes ++ room.drop g.bytes.length

section
variable {buffer : View} {room : Bytes} {g : Stage} {n : Nat} {s : Decoder}

theorem Reached.shift6 (h : Reached buffer room g n s) (v : Nat) :
    Reached buffer room (g.offer v) n (s.shift6 v) := by
  unfold Stage.offer
  by_cases hv : v ≤ 0x3F
  · have hr : (s.r <<< 6 ||| v) % 2^32 = (g.r * 64 + v) % 2^32 := by
      rw [shiftLeft_or _ _ 6 (by omega), h.r]
      rfl
    rw [if_pos hv, Decoder.shift6, if_pos hv]
    exact ⟨h.base, hr, by simp only [Stage.shift, h.ri], h.out, h.fits, h.result⟩
  · rw [if_neg hv, Decoder.shift6, if_neg hv]
    exact h

theorem Reached.store (h : Reached buffer room g n s) (bytes : Bytes) :
    s.store bytes = if g.bytes.length + bytes.length ≤ room.length then
      some { s with result := g.bytes ++ bytes ++ room.drop (g.bytes.length + bytes.length) }
    else none := by
  have hlen : s.result.length = room.length := by
    have hfits := h.fits
    rw [h.result, List.length_append, List.length_drop]
    omega
  have htake : s.result.take g.bytes.length = g.bytes := by
    rw [h.result, List.take_left' rfl]
  have hdrop : s.result.drop (g.bytes.length + bytes.length) =
      room.drop (g.bytes.length + bytes.length) := by
    rw [← List.drop_drop, h.result, List.drop_left' rfl, List.drop_drop]
  rw [Decoder.store, h.out, hlen, htake, hdrop]

theorem flush_eq (s : Decoder) : s.flush = (s.store (registerBytes s.r s.ri)).map fun t =>
    { t with out := s.out + (registerBytes s.r s.ri).length, ri := Stage.kept s.ri } := by
  cases hstore : s.store (registerBytes s.r s.ri) with
  | none => simp only [Decoder.flush, hstore, Option.bind_eq_bind, Option.bind_none, Option.map_none]
  | some t =>
    obtain ⟨base, out, r, ri, result⟩ := t
    obtain ⟨rfl, rfl⟩ : out = s.out ∧ ri = s.ri := by
      unfold store at hstore
      split_ifs at hstore
      cases hstore
      exact ⟨rfl, rfl⟩
    simp only [Decoder.flush, hstore, Option.bind_eq_bind, Option.bind_some, Option.map_some,
      Option.pure_def, Option.some.injEq]
    match s.ri with
    | 0 => rfl
    | 1 => rfl
    | 2 => rfl
    | 3 => rfl
    | 4 => rfl
    | ri + 5 => rfl

theorem Reached.flush (h : Reached buffer room g n s)
    (hfits : g.flush.bytes.length ≤ room.length) :
    ∃ t, s.flush = some t ∧ Reached buffer room g.flush n t := by
  have hlen : g.flush.bytes.length = g.bytes.length + (registerBytes g.r g.ri).length :=
    List.length_append
  have hstore := h.store (registerBytes g.r g.ri)
  rw [if_pos (by omega), ← hlen] at hstore
  have hflush : s.flush = some { s with
      out := s.out + (registerBytes g.r g.ri).length, ri := Stage.kept g.ri
      result := g.flush.bytes ++ room.drop g.flush.bytes.length } := by
    have heq := flush_eq s
    rw [h.r, h.ri, hstore] at heq
    exact heq
  refine ⟨_, hflush, h.base, h.r, rfl, ?_, hfits, rfl⟩
  rw [hlen, ← h.out]

/-- A pass reads the next group. -/
theorem Reached.decode4 (h : Reached buffer room g n s) (hn : n + 4 ≤ buffer.size)
    (hfits : (g.take (taken ((buffer.bytes.drop n).take 4))).flush.bytes.length ≤ room.length) :
    ∃ t, Base64.decode4 buffer s = some t ∧
      Reached buffer room (g.take (taken ((buffer.bytes.drop n).take 4))).flush (n + 4) t := by
  obtain ⟨a, b, c, d, hdrop⟩ := drop_four buffer.bytes n hn
  have hnext (k : Nat) (front back : Bytes) (hk : front.length = k)
      (happ : buffer.bytes.drop n = front ++ back) : buffer.bytes.drop (n + k) = back := by
    rw [← List.drop_drop, happ, List.drop_left' hk]
  have ha := decodeAt_drop buffer n a _ hdrop
  have hb := decodeAt_drop buffer (n + 1) b _ (hnext 1 [a] _ rfl hdrop)
  have hc := decodeAt_drop buffer (n + 2) c _ (hnext 2 [a, b] _ rfl hdrop)
  have hd := decodeAt_drop buffer (n + 3) d _ (hnext 3 [a, b, c] _ rfl hdrop)
  have htake : (buffer.bytes.drop n).take 4 = [a, b, c, d] := by
    rw [hdrop]
    rfl
  rw [htake] at hfits ⊢
  have hshift := (((h.shift6 (tableValue a)).shift6 (tableValue b)).shift6 (tableValue c)).shift6
    (tableValue d)
  have hall : g.take (taken [a, b, c, d]) = (((g.offer (tableValue a)).offer (tableValue b)).offer
      (tableValue c)).offer (tableValue d) := by
    rw [take_taken]
    rfl
  rw [← hall] at hshift
  obtain ⟨t, ht, hreached⟩ := hshift.flush hfits
  have hbase : s.base = t.base ∧ sizeT (t.base + 4) = buffer.addr + (n + 4) := by
    have hfit := buffer.fits
    have hlen : buffer.bytes.length = buffer.size := rfl
    refine ⟨h.base.trans hreached.base.symm, ?_⟩
    rw [hreached.base, sizeT_of_lt _ (by omega)]
    omega
  refine ⟨{ t with base := sizeT (t.base + 4) }, ?_, hbase.2, hreached.r, hreached.ri, hreached.out,
    hreached.fits, hreached.result⟩
  simp only [Base64.decode4, h.base, Nat.add_assoc, ha, hb, hc, hd, Option.bind_eq_bind,
    Option.bind_some, ht]
  rfl

theorem taken_append (bs bs' : Bytes) : taken (bs ++ bs') = taken bs ++ taken bs' := by
  simp [taken]

/-- The characters that are left are taken one by one. -/
theorem Reached.shiftRest (h : Reached buffer room g n s) (left : Nat)
    (hleft : n + left ≤ buffer.size) :
    ∃ t, (List.range left).foldlM (fun (s : Decoder) i => do
        let v ← decodeAt buffer (s.base + i)
        pure (s.shift6 v)) s = some t ∧
      Reached buffer room (g.take (taken ((buffer.bytes.drop n).take left))) n t := by
  induction left with
  | zero => exact ⟨s, rfl, by simpa [taken, Stage.take] using h⟩
  | succ left ih =>
    obtain ⟨t, ht, hreached⟩ := ih (by omega)
    have hlen : buffer.bytes.length = buffer.size := rfl
    obtain ⟨b, tail, hb⟩ : ∃ b tail, buffer.bytes.drop (n + left) = b :: tail := by
      have hpos : 0 < (buffer.bytes.drop (n + left)).length := by
        rw [List.length_drop]
        omega
      match buffer.bytes.drop (n + left), hpos with
      | b :: tail, _ => exact ⟨b, tail, rfl⟩
    have htake : (buffer.bytes.drop n).take (left + 1) =
        (buffer.bytes.drop n).take left ++ [b] := by
      rw [List.take_add, List.drop_drop, hb]
      rfl
    have hoffer : g.take (taken ((buffer.bytes.drop n).take (left + 1))) =
        (g.take (taken ((buffer.bytes.drop n).take left))).offer (tableValue b) := by
      rw [htake, taken_append, Stage.take_append, take_taken _ [b]]
      rfl
    have hread : decodeAt buffer (t.base + left) = some (tableValue b) := by
      rw [hreached.base, Nat.add_assoc]
      exact decodeAt_drop buffer (n + left) b tail hb
    refine ⟨t.shift6 (tableValue b), ?_, hoffer ▸ hreached.shift6 (tableValue b)⟩
    rw [List.range_succ, List.foldlM_append, ht]
    simp only [List.foldlM_cons, List.foldlM_nil, Option.bind_eq_bind, Option.bind_some,
      Option.pure_def, hread]

end

section
variable (buffer : View) (room : Bytes)

/-- The loop reads all whole groups. -/
theorem groups_read (hend : 3 ≤ buffer.addr + buffer.size)
    (hroom : 3 * (buffer.size / 4) ≤ room.length) :
    ∃ s, whileSome (fun s : Decoder => s.base < subSizeT (sizeT (buffer.addr + buffer.size)) 3)
        (decode4 buffer) (buffer.size + 1) ⟨buffer.addr, 0, 0, 0, room⟩ = some s ∧
      Reached buffer room (stage buffer.bytes (buffer.size / 4)) (4 * (buffer.size / 4)) s := by
  have hfit := buffer.fits
  have hlen : buffer.bytes.length = buffer.size := rfl
  have hstop : subSizeT (sizeT (buffer.addr + buffer.size)) 3 = buffer.addr + buffer.size - 3 := by
    rw [sizeT_of_lt _ (by omega)]
    simp only [subSizeT, sizeT]
    omega
  rw [hstop]
  apply whileSome_done (fun (j : Nat) (s : Decoder) =>
    Reached buffer room (stage buffer.bytes j) (4 * j) s) (buffer.size / 4) 0 _ _ (by omega)
  · intro j hj s hs
    have hbytes := (stage_bounds buffer.bytes (j + 1)).2.2
    obtain ⟨t, ht, hreached⟩ := hs.decode4 (by omega) (by
      change (stage buffer.bytes (j + 1)).bytes.length ≤ _
      omega)
    refine ⟨?_, t, ht, hreached⟩
    rw [hs.base]
    omega
  · intro s hs
    rw [hs.base]
    omega
  · omega
  · exact ⟨rfl, rfl, rfl, rfl, Nat.zero_le _, rfl⟩

/-- What the decoder leaves, where what it writes behind the groups is inside of the result. -/
theorem decodeTo_eq (hend : 3 ≤ buffer.addr + buffer.size)
    (hroom : 3 * (buffer.size / 4) ≤ room.length) :
    let g := lastStage buffer.bytes
    decodeTo buffer room = none ∧
        room.length < g.bytes.length + (registerBytes g.r g.ri).length ∨
      ∃ s, decodeTo buffer room = some s ∧ s.out = g.bytes.length ∧
        s.result.length = room.length ∧ s.result.take s.out = g.bytes ∧
        g.bytes.length + (registerBytes g.r g.ri).length ≤ room.length := by
  intro g
  have hfit := buffer.fits
  have hlen : buffer.bytes.length = buffer.size := rfl
  obtain ⟨s, hloop, hs⟩ := groups_read buffer room hend hroom
  have hleft : subSizeT (sizeT (buffer.addr + buffer.size)) s.base % 2^8 = buffer.size % 4 := by
    rw [hs.base, sizeT_of_lt _ (by omega)]
    simp only [subSizeT, sizeT]
    omega
  obtain ⟨t, hshift, ht⟩ := hs.shiftRest (buffer.size % 4) (by omega)
  have hrest : (buffer.bytes.drop (4 * (buffer.size / 4))).take (buffer.size % 4) =
      rest buffer.bytes := by
    rw [rest, hlen, Nat.mul_comm]
    apply List.take_of_length_le
    rw [List.length_drop]
    omega
  rw [hrest] at ht
  change Reached buffer room g _ t at ht
  have hstore := ht.store (registerBytes g.r g.ri)
  have htail : decodeTail buffer (buffer.size % 4) s = t.store (registerBytes g.r g.ri) := by
    rw [decodeTail, hshift, ← ht.r, ← ht.ri]
    rfl
  have hto : decodeTo buffer room = t.store (registerBytes g.r g.ri) := by
    simp only [decodeTo, Option.bind_eq_bind, hloop, Option.bind_some, hleft, htail]
  rw [hto, hstore]
  by_cases hin : g.bytes.length + (registerBytes g.r g.ri).length ≤ room.length
  · rw [if_pos hin]
    refine Or.inr ⟨_, rfl, ht.out, ?_, ?_, hin⟩
    · simp only [List.length_append, List.length_drop]
      omega
    · change List.take t.out _ = _
      rw [ht.out, List.append_assoc, List.take_left' rfl]
  · rw [if_neg hin]
    exact Or.inl ⟨rfl, by omega⟩

/-- Where the address three bytes before the end wraps, the loop reads beyond the end. -/
theorem decodeTo_wraps (hend : buffer.addr + buffer.size < 3) : decodeTo buffer room = none := by
  have hend' (s : Decoder) (k : Nat) (hs : s.base = buffer.addr) (hk : k = buffer.size) :
      decodeAt buffer (s.base + k) = none := by
    rw [hs]
    exact decodeAt_end buffer k hk
  have hread (s : Decoder) (hs : s.base = buffer.addr) : decode4 buffer s = none := by
    match hsize : buffer.size with
    | 0 =>
      have hnone : decodeAt buffer s.base = none := hend' s 0 hs hsize.symm
      simp only [decode4, hnone, Option.bind_eq_bind, Option.bind_none]
    | 1 =>
      have hnone : decodeAt buffer (s.base + 1) = none := hend' s 1 hs hsize.symm
      simp only [decode4, hnone, Option.bind_eq_bind, Option.bind_none, Option.bind_fun_none]
    | 2 =>
      have hnone : decodeAt buffer (s.base + 2) = none := hend' s 2 hs hsize.symm
      simp only [decode4, hnone, Option.bind_eq_bind, Option.bind_none, Option.bind_fun_none]
    | n + 3 => omega
  have hstop : 3 < subSizeT (sizeT (buffer.addr + buffer.size)) 3 := by
    rw [sizeT_of_lt _ (by omega)]
    simp only [subSizeT, sizeT]
    omega
  have hloop : whileSome
      (fun s : Decoder => s.base < subSizeT (sizeT (buffer.addr + buffer.size)) 3)
      (decode4 buffer) (buffer.size + 1) ⟨buffer.addr, 0, 0, 0, room⟩ = none := by
    apply whileSome_stuck (fun (_ : Nat) (s : Decoder) => s.base = buffer.addr) 0 0 _ _ (Nat.le_refl 0)
    · intro j hj
      omega
    · intro s hs
      refine ⟨?_, hread s hs⟩
      rw [hs]
      omega
    · rfl
  simp only [decodeTo, hloop, Option.bind_eq_bind, Option.bind_none]

end

end Libnodecc.Util.Base64
