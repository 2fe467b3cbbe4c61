import Libnodecc.Framework.Crc
import Libnodecc.Framework.Loop
import Libnodecc.Util.Crc32cTables
import Libnodecc.Util.ViewSpecs

namespace Libnodecc.Util.Crc32c

open Buffer Base64

/-- A `buffer_view` that shows bytes has a data pointer. -/
structure Piece extends View where
  nonnull : bytes ≠ [] → addr ≠ 0

/-- The pointer `data` and the value `crc`. -/
structure Cursor where
  data : Nat
  crc : BitVec 32
  deriving DecidableEq

/-- `table[x & 0x000000ff]`. -/
def entry (table : List (BitVec 32)) (x : BitVec 32) : Option (BitVec 32) :=
  table[(x &&& 0x000000ff#32).toNat]?

section
variable (buffer : View)

/-- The body of the loops over bytes. -/
def pushByte (c : Cursor) : Option Cursor := do
  let b ← buffer.byte c.data
  let term ← entry crcTableil8O32 (c.crc ^^^ BitVec.ofNat 32 b)
  pure ⟨sizeT (c.data + 1), term ^^^ (c.crc >>> 8)⟩

/-- The body of the loop over two words. -/
def pushWords (c : Cursor) : Option Cursor := do
  let first ← buffer.word c.data
  let crc := c.crc ^^^ BitVec.ofNat 32 first
  let data := sizeT (c.data + 4)
  let t88 ← entry crcTableil8O88 crc
  let t80 ← entry crcTableil8O80 (crc >>> 8)
  let term1 := t88 ^^^ t80
  let term2 := crc >>> 16
  let t72 ← entry crcTableil8O72 term2
  let t64 ← entry crcTableil8O64 (term2 >>> 8)
  let crc := term1 ^^^ t72 ^^^ t64
  let second ← buffer.word data
  let t56 ← entry crcTableil8O56 (BitVec.ofNat 32 second)
  let t48 ← entry crcTableil8O48 (BitVec.ofNat 32 second >>> 8)
  let term1 := t56 ^^^ t48
  let term2 := BitVec.ofNat 32 second >>> 16
  let data := sizeT (data + 4)
  let t40 ← entry crcTableil8O40 term2
  let t32 ← entry crcTableil8O32 (term2 >>> 8)
  pure ⟨data, crc ^^^ term1 ^^^ t40 ^^^ t32⟩

/-- `while (data < stop)`; a pass that does not fail moves on in the input. -/
def loop (body : Cursor → Option Cursor) (stop : Nat) : Cursor → Option Cursor :=
  whileSome (fun c => c.data < stop) body (buffer.size + 1)

/-- `crc32c::push` on a running value. -/
def push (crc : BitVec 32) : Option (BitVec 32) := do
  let data := buffer.addr
  let dataend := sizeT (data + buffer.size)
  if data = 0 ∨ data = dataend then
    pure 0xffffffff#32
  else do
    let div8start := sizeT (data + 7) &&& (2^64 - 8)
    let div8end := dataend &&& (2^64 - 8)
    let div8start := if div8start > dataend then dataend else div8start
    let c ← loop buffer (pushByte buffer) div8start ⟨data, crc⟩
    let c ← loop buffer (pushWords buffer) div8end c
    let c ← loop buffer (pushByte buffer) dataend c
    pure c.crc

end

/-- The static `crc32c::checksum`. -/
def checksumOf (buffer : View) : Option (BitVec 32) :=
  (push buffer 0xffffffff#32).map fun crc => crc ^^^ 0xffffffff#32

/-- A `crc32c` object that has got the pieces, one after the other; then its `checksum`. -/
def checksum (pieces : List Piece) : Option (BitVec 32) :=
  (pieces.foldlM (fun crc piece => push piece.toView crc) 0xffffffff#32).map fun crc =>
    crc ^^^ 0xffffffff#32

def poly : BitVec 32 := 0x1EDC6F41#32

def remainders (k : Nat) : List (BitVec 32) :=
  (List.range 256).map fun i => Crc.shifts poly (8 * k) (BitVec.ofNat 32 i)

theorem tables_chain :
    crcTableil8O32 = remainders 1 ∧
      crcTableil8O40 = crcTableil8O32.map (Crc.shifts poly 8) ∧
      crcTableil8O48 = crcTableil8O40.map (Crc.shifts poly 8) ∧
      crcTableil8O56 = crcTableil8O48.map (Crc.shifts poly 8) ∧
      crcTableil8O64 = crcTableil8O56.map (Crc.shifts poly 8) ∧
      crcTableil8O72 = crcTableil8O64.map (Crc.shifts poly 8) ∧
      crcTableil8O80 = crcTableil8O72.map (Crc.shifts poly 8) ∧
      crcTableil8O88 = crcTableil8O80.map (Crc.shifts poly 8) := by
  decide +kernel

theorem remainders_next (k : Nat) :
    (remainders k).map (Crc.shifts poly 8) = remainders (k + 1) := by
  unfold remainders
  rw [List.map_map]
  apply List.map_congr_left
  intro i _
  rw [Function.comp_apply, ← Crc.shifts_add]
  rfl

theorem entry_remainders (k : Nat) (x : BitVec 32) :
    entry (remainders k) x = some (Crc.shifts poly (8 * k) (x &&& 255#32)) := by
  have hlt : (x &&& 0xff#32).toNat < 256 := by
    rw [BitVec.toNat_and]
    exact lt_of_le_of_lt Nat.and_le_right (by decide)
  rw [entry, remainders, List.getElem?_map, List.getElem?_range hlt, Option.map_some,
    BitVec.ofNat_toNat, BitVec.setWidth_eq]

/-- Which table goes with which distance to the end of the eight bytes. -/
theorem entries (x : BitVec 32) :
    entry crcTableil8O32 x = some (Crc.shifts poly 8 (x &&& 255#32)) ∧
      entry crcTableil8O40 x = some (Crc.shifts poly 16 (x &&& 255#32)) ∧
      entry crcTableil8O48 x = some (Crc.shifts poly 24 (x &&& 255#32)) ∧
      entry crcTableil8O56 x = some (Crc.shifts poly 32 (x &&& 255#32)) ∧
      entry crcTableil8O64 x = some (Crc.shifts poly 40 (x &&& 255#32)) ∧
      entry crcTableil8O72 x = some (Crc.shifts poly 48 (x &&& 255#32)) ∧
      entry crcTableil8O80 x = some (Crc.shifts poly 56 (x &&& 255#32)) ∧
      entry crcTableil8O88 x = some (Crc.shifts poly 64 (x &&& 255#32)) := by
  obtain ⟨h32, h40, h48, h56, h64, h72, h80, h88⟩ := tables_chain
  rw [h32, remainders_next] at h40
  rw [h40, remainders_next] at h48
  rw [h48, remainders_next] at h56
  rw [h56, remainders_next] at h64
  rw [h64, remainders_next] at h72
  rw [h72, remainders_next] at h80
  rw [h80, remainders_next] at h88
  rw [h32, h40, h48, h56, h64, h72, h80, h88]
  exact ⟨entry_remainders 1 x, entry_remainders 2 x, entry_remainders 3 x, entry_remainders 4 x,
    entry_remainders 5 x, entry_remainders 6 x, entry_remainders 7 x, entry_remainders 8 x⟩

/-- A word with `n` zero bits after it, byte by byte. -/
theorem shifts_bytes (n : Nat) (x : BitVec 32) :
    Crc.shifts poly (32 + n) x =
      Crc.shifts poly (32 + n) (x &&& 255#32) ^^^ Crc.shifts poly (24 + n) (x >>> 8 &&& 255#32) ^^^
        (Crc.shifts poly (16 + n) (x >>> 16 &&& 255#32) ^^^
          Crc.shifts poly (8 + n) (x >>> 16 >>> 8 &&& 255#32)) := by
  have h0 := Crc.shifts_split poly (24 + n) x
  have h1 := Crc.shifts_split poly (16 + n) (x >>> 8)
  have h2 := Crc.shifts_split poly (8 + n) (x >>> 16)
  have h3 := Crc.shifts_split poly n (x >>> 16 >>> 8)
  have hnone : x >>> 16 >>> 8 >>> 8 = 0#32 := by
    rw [← BitVec.shiftRight_add, ← BitVec.shiftRight_add]
    exact BitVec.ushiftRight_eq_zero (by decide)
  rw [hnone, Crc.shifts_zero, BitVec.xor_zero] at h3
  rw [← Nat.add_assoc] at h0 h1 h2
  rw [← BitVec.shiftRight_add] at h1
  rw [h0, h1, h2, h3, BitVec.xor_assoc]

theorem word_bytes (a b c d : UInt8) :
    BitVec.ofNat 32 (readDigits 256 0 [d.toNat, c.toNat, b.toNat, a.toNat]) =
      Crc.word [a, b, c, d] :=
  (Crc.word_readDigits [a, b, c, d]).symm

theorem update_word (crc : BitVec 32) (a b c d : UInt8) :
    Crc.shifts poly 32 (crc ^^^ Crc.word [a, b, c, d]) = Crc.update poly crc [a, b, c, d] :=
  Crc.shifts_word poly crc [a, b, c, d] le_rfl

/-- The first `i` bytes have been divided. -/
structure Pushed (buffer : View) (crc : BitVec 32) (i : Nat) (c : Cursor) : Prop where
  data : c.data = buffer.addr + i
  le : i ≤ buffer.size
  crc : c.crc = Crc.update poly crc (buffer.bytes.take i)

section
variable {buffer : View} {crc : BitVec 32} {i : Nat} {c : Cursor}

theorem Pushed.advance (hc : Pushed buffer crc i c) (g rest : Bytes)
    (hg : buffer.bytes.drop i = g ++ rest) :
    Pushed buffer crc (i + g.length) ⟨sizeT (c.data + g.length), Crc.update poly c.crc g⟩ := by
  have hlen := congrArg List.length hg
  simp only [List.length_drop, List.length_append] at hlen
  have hle := hc.le
  have hfits := buffer.fits
  have hsize : buffer.size = buffer.bytes.length := rfl
  constructor
  · change sizeT (c.data + g.length) = _
    rw [hc.data, sizeT_of_lt _ (by omega), Nat.add_assoc]
  · omega
  · change Crc.update poly c.crc g = _
    rw [List.take_add, hg, List.take_left, Crc.update_append, hc.crc]

theorem Pushed.pushByte (hc : Pushed buffer crc i c) (hi : i < buffer.size) :
    ∃ d, pushByte buffer c = some d ∧ Pushed buffer crc (i + 1) d := by
  obtain ⟨b, rest, hdrop⟩ : ∃ b rest, buffer.bytes.drop i = b :: rest := by
    have hne : buffer.bytes.drop i ≠ [] := by
      rw [Ne, List.drop_eq_nil_iff]
      simp only [View.size] at hi
      omega
    exact List.exists_cons_of_ne_nil hne
  have hb : BitVec.ofNat 32 b.toNat = b.toBitVec.setWidth 32 := BitVec.ofNat_toNat 32 b.toBitVec
  have hshift : (c.crc ^^^ b.toBitVec.setWidth 32) >>> 8 = c.crc >>> 8 := by
    have hzero : b.toBitVec.setWidth 32 >>> 8 = 0#32 := by
      apply BitVec.eq_of_getLsbD_eq
      intro j _
      simp [BitVec.getLsbD_ushiftRight]
    rw [BitVec.ushiftRight_xor_distrib, hzero, BitVec.xor_zero]
  have hvalue : Crc.shifts poly 8 ((c.crc ^^^ b.toBitVec.setWidth 32) &&& 255#32) ^^^ (c.crc >>> 8) =
      Crc.byte poly c.crc b := by
    have h := Crc.shifts_split poly 0 (c.crc ^^^ b.toBitVec.setWidth 32)
    rw [hshift] at h
    exact h.symm
  refine ⟨_, ?_, hc.advance [b] rest hdrop⟩
  rw [Crc32c.pushByte, hc.data, byte_drop buffer i b rest hdrop]
  simp only [Option.bind_eq_bind, Option.bind_some, hb,
    (entries (c.crc ^^^ b.toBitVec.setWidth 32)).1, hvalue, Option.pure_def]
  rw [← hc.data]
  rfl

theorem Pushed.pushWords (hc : Pushed buffer crc i c) (hi : i + 8 ≤ buffer.size) :
    ∃ d, pushWords buffer c = some d ∧ Pushed buffer crc (i + 8) d := by
  have hfits := buffer.fits
  have hsize : buffer.size = buffer.bytes.length := rfl
  obtain ⟨b0, b1, b2, b3, hdrop0⟩ := drop_four buffer.bytes i (by omega)
  obtain ⟨b4, b5, b6, b7, hdrop4⟩ := drop_four buffer.bytes (i + 4) (by omega)
  have hdrop : buffer.bytes.drop i =
      [b0, b1, b2, b3, b4, b5, b6, b7] ++ buffer.bytes.drop (i + 8) := by
    rw [hdrop0, hdrop4]
    rfl
  have hfirst := word_little buffer i b0 b1 b2 b3 _ hdrop0
  have hsecond := word_little buffer (i + 4) b4 b5 b6 b7 _ hdrop4
  have hmove : sizeT (buffer.addr + i + 4) = buffer.addr + (i + 4) := by
    rw [sizeT_of_lt _ (by omega), Nat.add_assoc]
  have hlast : buffer.addr + (i + 4) + 4 = buffer.addr + i + 8 := by omega
  obtain ⟨x, hx⟩ : ∃ x, x = c.crc ^^^ Crc.word [b0, b1, b2, b3] := ⟨_, rfl⟩
  obtain ⟨y, hy⟩ : ∃ y : BitVec 32, y = Crc.word [b4, b5, b6, b7] := ⟨_, rfl⟩
  -- the first word has four bytes after it, the second one none
  have hvalue : Crc.update poly c.crc [b0, b1, b2, b3, b4, b5, b6, b7] =
      Crc.shifts poly 64 x ^^^ Crc.shifts poly 32 y := by
    have happend := Crc.update_append poly c.crc [b0, b1, b2, b3] [b4, b5, b6, b7]
    rw [← update_word c.crc, ← update_word (Crc.shifts poly 32 _), ← hx, ← hy, Crc.shifts_xor,
      ← Crc.shifts_add poly 32 32] at happend
    exact happend
  have hbytes : Crc.update poly c.crc [b0, b1, b2, b3, b4, b5, b6, b7] =
      Crc.shifts poly 64 (x &&& 255#32) ^^^ Crc.shifts poly 56 (x >>> 8 &&& 255#32) ^^^
          Crc.shifts poly 48 (x >>> 16 &&& 255#32) ^^^
            Crc.shifts poly 40 (x >>> 16 >>> 8 &&& 255#32) ^^^
        (Crc.shifts poly 32 (y &&& 255#32) ^^^ Crc.shifts poly 24 (y >>> 8 &&& 255#32)) ^^^
          Crc.shifts poly 16 (y >>> 16 &&& 255#32) ^^^
            Crc.shifts poly 8 (y >>> 16 >>> 8 &&& 255#32) := by
    have h64 := shifts_bytes 32 x
    have h32 := shifts_bytes 0 y
    rw [hvalue, h64, h32]
    simp only [BitVec.xor_assoc]
  refine ⟨_, ?_, hc.advance [b0, b1, b2, b3, b4, b5, b6, b7] _ hdrop⟩
  obtain ⟨-, -, -, -, x40, -, -, -⟩ := entries (x >>> 16 >>> 8)
  obtain ⟨-, -, -, -, -, x48, -, -⟩ := entries (x >>> 16)
  obtain ⟨-, -, -, -, -, -, x56, -⟩ := entries (x >>> 8)
  obtain ⟨-, -, -, -, -, -, -, x64⟩ := entries x
  obtain ⟨y8, -⟩ := entries (y >>> 16 >>> 8)
  obtain ⟨-, y16, -⟩ := entries (y >>> 16)
  obtain ⟨-, -, y24, -⟩ := entries (y >>> 8)
  obtain ⟨-, -, -, y32, -⟩ := entries y
  rw [Crc32c.pushWords, hc.data, hfirst]
  simp only [Option.bind_eq_bind, Option.bind_some, word_bytes, ← hx, hmove, hsecond, ← hy, hlast,
    x40, x48, x56, x64, y8, y16, y24, y32, Option.pure_def, hbytes]
  rfl

/-- A loop over `n` passes that each take `w` bytes. -/
theorem loop_pushed (body : Cursor → Option Cursor) (stop w n : Nat) (hw : 0 < w)
    (hbody : ∀ j d, Pushed buffer crc j d → j + w ≤ buffer.size →
      ∃ e, body d = some e ∧ Pushed buffer crc (j + w) e)
    (hend : i + w * n ≤ buffer.size) (hstop : stop ≤ buffer.addr + i + w * n)
    (hlast : n = 0 ∨ buffer.addr + i + w * n ≤ stop) (hc : Pushed buffer crc i c) :
    ∃ d, loop buffer body stop c = some d ∧ Pushed buffer crc (i + w * n) d := by
  have hn : n ≤ w * n := Nat.le_mul_of_pos_left n hw
  apply whileSome_done (fun k d => Pushed buffer crc (i + w * k) d) n 0 (buffer.size + 1) c
    (Nat.zero_le n)
  · intro k hk d hd
    have hnext : w * (k + 1) ≤ w * n := Nat.mul_le_mul_left w hk
    rw [Nat.mul_succ] at hnext
    constructor
    · rw [hd.data]
      omega
    · obtain ⟨e, he, hpushed⟩ := hbody _ d hd (by omega)
      rw [Nat.add_assoc, ← Nat.mul_succ] at hpushed
      exact ⟨e, he, hpushed⟩
  · intro d hd
    rw [hd.data]
    omega
  · omega
  · rw [Nat.mul_zero]
    exact hc

end

theorem align_down (x : Nat) (h : x < 2^64) : x &&& (2^64 - 8) = x / 8 * 8 := by
  have hshift : (x &&& (2^64 - 8)) >>> 3 = x / 2^3 % 2^61 :=
    and_mask_shiftRight x 61 3 _ (by decide)
  have hlow : (x &&& (2^64 - 8)) % 2^3 = 0 := by
    rw [Nat.and_mod_two_pow]
    exact Nat.and_zero _
  rw [Nat.shiftRight_eq_div_pow] at hshift
  omega

/-- `push` divides the bytes, at any address. -/
theorem push_pushed (crc : BitVec 32) (piece : Piece) (h : piece.bytes ≠ []) :
    push piece.toView crc = some (Crc.update poly crc piece.bytes) := by
  have hfits := piece.fits
  have hsize : piece.toView.size = piece.bytes.length := rfl
  have hnull := piece.nonnull h
  have hpos := List.length_pos_iff.mpr h
  have hend : sizeT (piece.addr + piece.toView.size) = piece.addr + piece.toView.size :=
    sizeT_of_lt _ (by omega)
  have hbytes : ¬ (piece.addr = 0 ∨ piece.addr = piece.addr + piece.toView.size) := by omega
  have hup : sizeT (piece.addr + 7) &&& (2^64 - 8) = sizeT (piece.addr + 7) / 8 * 8 :=
    align_down _ (Nat.mod_lt _ (by decide))
  have hdown : piece.addr + piece.toView.size &&& (2^64 - 8) =
      (piece.addr + piece.toView.size) / 8 * 8 := align_down _ (by omega)
  -- next to the end of the address space the aligned address wraps to 0
  have hwrap : sizeT (piece.addr + 7) = piece.addr + 7 ∨
      2^64 ≤ piece.addr + 7 ∧ sizeT (piece.addr + 7) < 8 := by
    simp only [sizeT]
    omega
  obtain ⟨start, hstart⟩ : ∃ start, start =
      if sizeT (piece.addr + 7) / 8 * 8 > piece.addr + piece.toView.size then
        piece.addr + piece.toView.size
      else sizeT (piece.addr + 7) / 8 * 8 := ⟨_, rfl⟩
  obtain ⟨stop, hstop⟩ : ∃ stop, stop = (piece.addr + piece.toView.size) / 8 * 8 := ⟨_, rfl⟩
  obtain ⟨n1, hn1⟩ : ∃ n, n = start - piece.addr := ⟨_, rfl⟩
  obtain ⟨n2, hn2⟩ : ∃ n, n = (stop - (piece.addr + n1)) / 8 := ⟨_, rfl⟩
  obtain ⟨n3, hn3⟩ : ∃ n, n = piece.toView.size - (n1 + 8 * n2) := ⟨_, rfl⟩
  have hbound : start ≤ piece.addr + piece.toView.size ∧
      (start % 8 = 0 ∨ start = piece.addr + piece.toView.size) ∧
        (piece.addr ≤ start ∨ stop ≤ piece.addr) := by
    split_ifs at hstart <;> omega
  have hzero : Pushed piece.toView crc 0 ⟨piece.addr, crc⟩ := ⟨rfl, Nat.zero_le _, rfl⟩
  obtain ⟨c1, hc1, h1⟩ := loop_pushed (pushByte piece.toView) start 1 n1 (by decide)
    (fun _ _ hd hj => hd.pushByte hj) (by omega) (by omega) (by omega) hzero
  obtain ⟨c2, hc2, h2⟩ := loop_pushed (pushWords piece.toView) stop 8 n2 (by decide)
    (fun _ _ hd hj => hd.pushWords hj) (by omega) (by omega) (by omega) h1
  obtain ⟨c3, hc3, h3⟩ := loop_pushed (pushByte piece.toView)
    (piece.addr + piece.toView.size) 1 n3 (by decide)
    (fun _ _ hd hj => hd.pushByte hj) (by omega) (by omega) (by omega) h2
  have hall : 0 + 1 * n1 + 8 * n2 + 1 * n3 = piece.bytes.length := by omega
  have hcrc := h3.crc
  rw [hall, List.take_length] at hcrc
  rw [push]
  simp only [hend, if_neg hbytes, hup, hdown, ← hstart, ← hstop, hc1, hc2, hc3,
    Option.bind_eq_bind, Option.bind_some, hcrc, Option.pure_def]

/-- `push` with its tables is the bit by bit update, at any address. -/
theorem push_bitwise (crc : BitVec 32) (piece : Piece) (h : piece.bytes ≠ []) :
    push piece.toView crc = some (Crc.bitwise poly crc piece.bytes) := by
  rw [push_pushed crc piece h, Crc.update_bitwise poly crc piece.bytes (by decide)]

/-- Twenty digits at an odd address: three bytes, two words and a byte. -/
def twentyDigits : Piece where
  bytes := [0x31, 0x32, 0x33, 0x34, 0x35, 0x36, 0x37, 0x38, 0x39, 0x30, 0x31, 0x32, 0x33, 0x34, 0x35,
    0x36, 0x37, 0x38, 0x39, 0x30]
  length_lt := by decide
  addr := 4101
  fits := by decide
  nonnull _ := by decide

theorem push_bitwise_check :
    push twentyDigits.toView 0xffffffff#32 = some 0x574b5946#32 := by
  have h := push_bitwise 0xffffffff#32 twentyDigits (by decide)
  have hvalue : Crc.bitwise poly 0xffffffff#32 twentyDigits.bytes = 0x574b5946#32 := by
    decide +kernel
  rw [h, hvalue]

def whole (pieces : List Piece) : Bytes := pieces.flatMap fun piece => piece.bytes

/-- The last piece without bytes leaves the value it starts again with. -/
def Restartable (pieces : List Piece) : Prop :=
  ∀ before piece after, pieces = before ++ piece :: after → piece.bytes = [] →
    (∀ p ∈ after, p.bytes ≠ []) → Crc.update poly 0xffffffff#32 (whole before) = 0xffffffff#32

theorem restartable_of_nonempty (pieces : List Piece) (h : ∀ p ∈ pieces, p.bytes ≠ []) :
    Restartable pieces := by
  intro before piece after hsplit hempty _
  exact absurd hempty (h piece (by simp [hsplit]))

theorem push_empty (crc : BitVec 32) (piece : Piece) (h : piece.bytes = []) :
    push piece.toView crc = some 0xffffffff#32 := by
  have hfits := piece.fits
  have hsize : piece.toView.size = 0 := by rw [View.size, h]; rfl
  have hend : sizeT (piece.addr + piece.toView.size) = piece.addr := by
    rw [hsize, Nat.add_zero, sizeT_of_lt _ (by omega)]
  rw [push]
  simp only [hend, or_true, if_true, Option.pure_def]

section
variable (crc : BitVec 32)

def pushAll (pieces : List Piece) : Option (BitVec 32) :=
  pieces.foldlM (fun crc piece => push piece.toView crc) crc

theorem pushAll_nonempty (pieces : List Piece) (h : ∀ p ∈ pieces, p.bytes ≠ []) :
    pushAll crc pieces = some (Crc.update poly crc (whole pieces)) := by
  induction pieces generalizing crc with
  | nil => rfl
  | cons p ps ih =>
    have hps := ih (Crc.update poly crc p.bytes) fun q hq => h q (by simp [hq])
    rw [pushAll, List.foldlM_cons, push_pushed crc p (h p (by simp))]
    change pushAll _ ps = _
    rw [hps, ← Crc.update_append]
    rfl

theorem pushAll_total (pieces : List Piece) : ∃ crc', pushAll crc pieces = some crc' := by
  induction pieces generalizing crc with
  | nil => exact ⟨crc, rfl⟩
  | cons p ps ih =>
    obtain ⟨crc1, h1⟩ : ∃ crc1, push p.toView crc = some crc1 := by
      by_cases hp : p.bytes = []
      · exact ⟨_, push_empty crc p hp⟩
      · exact ⟨_, push_pushed crc p hp⟩
    rw [pushAll, List.foldlM_cons, h1]
    exact ih crc1

theorem pushAll_restart (before after : List Piece) (piece : Piece) (hempty : piece.bytes = [])
    (hafter : ∀ p ∈ after, p.bytes ≠ []) :
    pushAll crc (before ++ piece :: after) =
      some (Crc.update poly 0xffffffff#32 (whole after)) := by
  obtain ⟨crc1, h1⟩ := pushAll_total crc before
  rw [pushAll] at h1
  rw [pushAll, List.foldlM_append, h1, Option.bind_eq_bind, Option.bind_some, List.foldlM_cons,
    push_empty crc1 piece hempty]
  exact pushAll_nonempty _ after hafter

end

theorem last_empty (pieces : List Piece) (h : ∃ p ∈ pieces, p.bytes = []) :
    ∃ before piece after, pieces = before ++ piece :: after ∧ piece.bytes = [] ∧
      ∀ p ∈ after, p.bytes ≠ [] := by
  induction pieces with
  | nil => simp at h
  | cons q qs ih =>
    by_cases hqs : ∃ p ∈ qs, p.bytes = []
    · obtain ⟨before, piece, after, hsplit, hrest⟩ := ih hqs
      exact ⟨q :: before, piece, after, by rw [hsplit, List.cons_append], hrest⟩
    · obtain ⟨p, hp, hempty⟩ := h
      rcases List.mem_cons.mp hp with rfl | hp
      · exact ⟨[], p, qs, rfl, hempty, fun r hr he => hqs ⟨r, hr, he⟩⟩
      · exact absurd ⟨p, hp, hempty⟩ hqs

/-- The pieces have the checksum of the whole message exactly if nothing is forgotten. -/
theorem checksum_pieces (pieces : List Piece) (message : Piece)
    (h : message.bytes = whole pieces) :
    checksum pieces = checksumOf message.toView ↔ Restartable pieces := by
  have hinj (x y : BitVec 32) : (some x).map (fun crc => crc ^^^ 0xffffffff#32) =
      (some y).map (fun crc => crc ^^^ 0xffffffff#32) ↔ x = y := by
    rw [Option.map_some, Option.map_some, Option.some.injEq, BitVec.xor_left_inj]
  have hone : push message.toView 0xffffffff#32 =
      some (Crc.update poly 0xffffffff#32 (whole pieces)) := by
    by_cases hm : message.bytes = []
    · rw [push_empty _ message hm, ← h, hm, Crc.update_nil]
    · rw [push_pushed _ message hm, h]
  rw [checksumOf, hone]
  change (pushAll 0xffffffff#32 pieces).map _ = _ ↔ _
  by_cases hany : ∃ p ∈ pieces, p.bytes = []
  · constructor
    · intro heq before piece after hsplit hempty hafter
      have hwhole : whole pieces = whole before ++ whole after := by
        simp [whole, hsplit, hempty]
      rw [hsplit, pushAll_restart _ before after piece hempty hafter, ← hsplit, hinj, hwhole,
        Crc.update_append] at heq
      exact (Crc.update_injective poly (by decide) (whole after) heq).symm
    · intro hrestart
      obtain ⟨before, piece, after, hsplit, hempty, hafter⟩ := last_empty pieces hany
      have hwhole : whole pieces = whole before ++ whole after := by
        simp [whole, hsplit, hempty]
      rw [hwhole, Crc.update_append, hrestart before piece after hsplit hempty hafter, hsplit,
        pushAll_restart _ before after piece hempty hafter]
  · have hall : ∀ p ∈ pieces, p.bytes ≠ [] := fun p hp he => hany ⟨p, hp, he⟩
    rw [pushAll_nonempty _ pieces hall]
    exact iff_of_true rfl (restartable_of_nonempty pieces hall)

/-- `"123456789"`, which the check value of a CRC is about. -/
def checkString : Piece where
  bytes := [0x31, 0x32, 0x33, 0x34, 0x35, 0x36, 0x37, 0x38, 0x39]
  length_lt := by decide
  addr := 4101
  fits := by decide
  nonnull _ := by decide

theorem checksum_pieces_check :
    checksum [⟨⟨⟨[0x31, 0x32, 0x33, 0x34], by decide⟩, 4099, by decide⟩, fun _ => by decide⟩,
      ⟨⟨⟨[0x35, 0x36, 0x37, 0x38, 0x39], by decide⟩, 8192, by decide⟩, fun _ => by decide⟩] =
      checksumOf checkString.toView := by
  apply (checksum_pieces _ checkString (by decide)).mpr
  apply restartable_of_nonempty
  decide

/-- `"a"` and then a piece without bytes have the checksum of no bytes. -/
theorem empty_piece_restarts :
    checksum [⟨⟨⟨[0x61], by decide⟩, 4096, by decide⟩, fun _ => by decide⟩,
      ⟨⟨⟨[], by decide⟩, 0, by decide⟩, fun h => absurd rfl h⟩] ≠
      checksumOf ⟨⟨[0x61], by decide⟩, 4096, by decide⟩ := by
  decide +kernel

end Libnodecc.Util.Crc32c
