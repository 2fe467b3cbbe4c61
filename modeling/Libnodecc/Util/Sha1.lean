import Libnodecc.Buffer.Value
import Libnodecc.Framework.Loop
import Libnodecc.Framework.Sha1
import Libnodecc.Util.SizeT

namespace Libnodecc.Util

open Libnodecc.Sha1

def leftRotate (x : Word) (n : Nat) : Word := (x <<< n) ^^^ (x >>> (32 - n))

/-- The members of a `sha1`. Between two calls the index lies in the block. -/
structure Sha1 where
  bitCount : Nat
  h : Words
  block : Bytes
  blockByteIndex : Nat
  length_block : block.length = 64
  index_lt : blockByteIndex < 64

namespace Sha1

/-- What the memory of a `sha1` holds before it is constructed. -/
structure Memory where
  block : Bytes
  length_block : block.length = 64

/-- The constructor, which leaves `_block` as it is. -/
def construct (memory : Memory) : Sha1 where
  bitCount := 0
  h := ⟨0x67452301#32, 0xefcdab89#32, 0x98badcfe#32, 0x10325476#32, 0xc3d2e1f0#32⟩
  block := memory.block
  blockByteIndex := 0
  length_block := memory.length_block
  index_lt := by decide

/-- A byte of `_block`, as it is shifted. -/
def blockByte (block : Bytes) (i : Nat) : Word := (block.getD i 0).toBitVec.setWidth 32

/-- The first loop of `process_block`. -/
def loadWord (block : Bytes) (i : Nat) : Word :=
  let w := blockByte block (i * 4 + 0) <<< 24
  let w := w ||| blockByte block (i * 4 + 1) <<< 16
  let w := w ||| blockByte block (i * 4 + 2) <<< 8
  w ||| blockByte block (i * 4 + 3) <<< 0

/-- The second loop, for `i` from the number of words on. -/
def expandWords : Nat → List Word → List Word
  | 0, w => w
  | k + 1, w =>
    let i := w.length
    expandWords k
      (w ++ [leftRotate (w.getD (i - 3) 0 ^^^ w.getD (i - 8) 0 ^^^ w.getD (i - 14) 0 ^^^
        w.getD (i - 16) 0) 1])

/-- The body of the third loop. -/
def processRound (w : List Word) (v : Words) (i : Nat) : Words :=
  let (f, k) :=
    if i < 20 then ((v.b &&& v.c) ||| (~~~v.b &&& v.d), 0x5a827999#32)
    else if i < 40 then (v.b ^^^ v.c ^^^ v.d, 0x6ed9eba1#32)
    else if i < 60 then ((v.b &&& v.c) ||| (v.b &&& v.d) ||| (v.c &&& v.d), 0x8f1bbcdc#32)
    else (v.b ^^^ v.c ^^^ v.d, 0xca62c1d6#32)
  let temp := leftRotate v.a 5 + f + v.e + k + w.getD i 0
  ⟨temp, v.a, leftRotate v.b 30, v.c, v.d⟩

/-- `sha1::process_block`. -/
def processBlock (h : Words) (block : Bytes) : Words :=
  let w := expandWords 64 ((List.range 16).map (loadWord block))
  let v := (List.range 80).foldl (processRound w) h
  ⟨h.a + v.a, h.b + v.b, h.c + v.c, h.d + v.d, h.e + v.e⟩

/-- `sha1::push_impl`. -/
def pushImpl (s : Sha1) (byte : UInt8) : Sha1 :=
  if hfull : s.blockByteIndex + 1 = 64 then
    { s with
      block := s.block.set s.blockByteIndex byte
      blockByteIndex := 0
      h := processBlock s.h (s.block.set s.blockByteIndex byte)
      length_block := by rw [List.length_set, s.length_block]
      index_lt := by decide }
  else
    { s with
      block := s.block.set s.blockByteIndex byte
      blockByteIndex := s.blockByteIndex + 1
      length_block := by rw [List.length_set, s.length_block]
      index_lt := by have h := s.index_lt; omega }

/-- `sha1::push` of a byte. -/
def push (s : Sha1) (byte : UInt8) : Sha1 :=
  let s := s.pushImpl byte
  { s with bitCount := sizeT (s.bitCount + 8) }

/-- `sha1::push` of a `buffer_view`. -/
def pushBuffer (s : Sha1) (buffer : Bytes) : Sha1 := buffer.foldl push s

/-- A loop that pushes zeros; the index is back at its start after 64 of them. -/
def pushZeros (cond : Nat → Prop) [DecidablePred cond] (s : Sha1) : Option Sha1 :=
  whileSome (fun s => cond s.blockByteIndex) (fun s => some (s.pushImpl 0)) 65 s

/-- The loops of `get_digest` that fill up the last block but for the length. -/
def pushPadding (s : Sha1) : Option Sha1 :=
  if 56 < s.blockByteIndex then do
    let s ← s.pushZeros fun i => i ≠ 0
    s.pushZeros fun i => i < 56
  else s.pushZeros fun i => i < 56

/-- The bytes of the length, which is read again for each of them. -/
def pushLength (s : Sha1) : Sha1 :=
  [56, 48, 40, 32, 24, 16, 8, 0].foldl
    (fun (s : Sha1) shift => s.pushImpl (UInt8.ofNat ((s.bitCount >>> shift) &&& 0xff))) s

/-- The four bytes of the digest for a word, each one cut off to eight bits. -/
def storeWord (h : Word) : Bytes :=
  [((h >>> 12) &&& 0xff000000#32).toNat, ((h >>> 8) &&& 0x00ff0000#32).toNat,
    ((h >>> 4) &&& 0x0000ff00#32).toNat, ((h >>> 0) &&& 0x000000ff#32).toNat].map UInt8.ofNat

/-- `sha1::get_digest`. -/
def getDigest (s : Sha1) : Option Bytes := do
  let s ← (s.pushImpl 0x80).pushPadding
  let s := s.pushLength
  pure (s.h.toList.flatMap storeWord)

inductive Feed where
  | byte (b : UInt8)
  | buffer (bs : Bytes)

def Feed.bytes : Feed → Bytes
  | byte b => [b]
  | buffer bs => bs

def feed (s : Sha1) : Feed → Sha1
  | .byte b => s.push b
  | .buffer bs => s.pushBuffer bs

def message (feeds : List Feed) : Bytes := feeds.flatMap Feed.bytes

theorem leftRotate_rotl (x : Word) (n : Nat) (hn : n < 32) : leftRotate x n = rotl n x := by
  apply BitVec.eq_of_getLsbD_eq
  intro i hi
  simp only [leftRotate, rotl, BitVec.getLsbD_xor, BitVec.getLsbD_or, BitVec.getLsbD_shiftLeft,
    BitVec.getLsbD_ushiftRight]
  by_cases hlow : i < n
  · simp [hlow]
  · rw [BitVec.getLsbD_of_ge x (32 - n + i) (by omega), Bool.xor_false, Bool.or_false]

theorem choose_ch (x y z : Word) : (x &&& y) ||| (~~~x &&& z) = ch x y z := by
  apply BitVec.eq_of_getLsbD_eq
  intro i hi
  simp only [ch, BitVec.getLsbD_xor, BitVec.getLsbD_or, BitVec.getLsbD_and, BitVec.getLsbD_not, hi,
    decide_true, Bool.true_and]
  cases x.getLsbD i <;> cases y.getLsbD i <;> cases z.getLsbD i <;> rfl

theorem majority_maj (x y z : Word) :
    (x &&& y) ||| (x &&& z) ||| (y &&& z) = maj x y z := by
  apply BitVec.eq_of_getLsbD_eq
  intro i hi
  simp only [maj, BitVec.getLsbD_xor, BitVec.getLsbD_or, BitVec.getLsbD_and]
  cases x.getLsbD i <;> cases y.getLsbD i <;> cases z.getLsbD i <;> rfl

theorem processRound_eq (w : List Word) (v : Words) (i : Nat) :
    processRound w v i = round v i (w.getD i 0) := by
  rw [processRound, Libnodecc.Sha1.round, choose_ch, majority_maj, leftRotate_rotl _ 5 (by decide),
    leftRotate_rotl _ 30 (by decide), logical, constant]
  split_ifs
  · rfl
  · rfl
  · rfl
  · rfl

theorem loadWord_eq (block : Bytes) (i : Nat) (h : 4 * i + 4 ≤ block.length) :
    loadWord block i = BitVec.ofNat 32 (bigEndian ((block.drop (4 * i)).take 4)) := by
  obtain ⟨b0, b1, b2, b3, rest, hdrop⟩ : ∃ b0 b1 b2 b3 rest,
      block.drop (4 * i) = b0 :: b1 :: b2 :: b3 :: rest := by
    have hlen : 4 ≤ (block.drop (4 * i)).length := by
      rw [List.length_drop]
      omega
    match block.drop (4 * i), hlen with
    | b0 :: b1 :: b2 :: b3 :: rest, _ => exact ⟨b0, b1, b2, b3, rest, rfl⟩
  have hget (j : Nat) : block.getD (i * 4 + j) 0 = (block.drop (4 * i)).getD j 0 := by
    rw [List.getD_eq_getElem?_getD, List.getD_eq_getElem?_getD, List.getElem?_drop, Nat.mul_comm]
  have hbyte (b : UInt8) (n : Nat) (hn : n ≤ 24) :
      (b.toBitVec.setWidth 32 <<< n).toNat = b.toNat <<< n := by
    have hb := b.toNat_lt
    have hlt : b.toNat * 2^n < 2^32 := by
      calc b.toNat * 2^n < 2^8 * 2^n := Nat.mul_lt_mul_of_pos_right hb (Nat.pow_pos (by decide))
        _ ≤ 2^8 * 2^24 := Nat.mul_le_mul_left _ (Nat.pow_le_pow_right (by decide) hn)
    have hwide : (b.toBitVec.setWidth 32).toNat = b.toNat :=
      BitVec.toNat_setWidth_of_le (by decide)
    rw [BitVec.toNat_shiftLeft, hwide, Nat.shiftLeft_eq, Nat.mod_eq_of_lt hlt]
  apply BitVec.eq_of_toNat_eq
  simp only [loadWord, blockByte, hget, hdrop, List.getD_cons_zero, List.getD_cons_succ,
    BitVec.toNat_or, hbyte _ 24 (by decide), hbyte _ 16 (by decide), hbyte _ 8 (by decide),
    hbyte _ 0 (by decide), Nat.shiftLeft_zero]
  rw [or_bytes _ _ _ _ b1.toNat_lt b2.toNat_lt b3.toNat_lt, BitVec.toNat_ofNat, Nat.mod_eq_of_lt]
  · rfl
  · have h0 := b0.toNat_lt
    have h1 := b1.toNat_lt
    have h2 := b2.toNat_lt
    have h3 := b3.toNat_lt
    change readDigits 256 0 [b0.toNat, b1.toNat, b2.toNat, b3.toNat] < _
    rw [readDigits_four]
    omega

theorem expandWords_schedule (block : Bytes) (k t : Nat) :
    expandWords k (schedule block t) = schedule block (t + k) := by
  induction k generalizing t with
  | zero => rfl
  | succ k ih =>
    have hlen := schedule_length block t
    have h3 : 16 + t - 3 = t + 13 := by omega
    have h8 : 16 + t - 8 = t + 8 := by omega
    have h14 : 16 + t - 14 = t + 2 := by omega
    have h16 : 16 + t - 16 = t := by omega
    rw [expandWords]
    simp only [hlen, h3, h8, h14, h16, leftRotate_rotl _ 1 (by decide)]
    have hnext := ih (t + 1)
    rw [schedule] at hnext
    rw [hnext, Nat.add_assoc, Nat.add_comm 1 k]

theorem processBlock_eq (h : Words) (block : Bytes) (hlen : block.length = 64) :
    processBlock h block = compress h block := by
  have hload : (List.range 16).map (loadWord block) = schedule block 0 := by
    rw [schedule, blockWords]
    apply List.map_congr_left
    intro i hi
    have hlt := List.mem_range.mp hi
    exact loadWord_eq block i (by omega)
  have hround : processRound (schedule block 64) = fun v t =>
      round v t ((schedule block 64).getD t 0) := by
    funext v t
    exact processRound_eq _ v t
  rw [processBlock, hload, expandWords_schedule, hround]
  rfl

/-- The bytes `xs` are in the hash value or wait in the block. -/
def Holds (s : Sha1) (xs : Bytes) : Prop :=
  Absorbed 64 compress initial xs s.h s.block s.blockByteIndex

section
variable {s : Sha1} {xs : Bytes}

theorem Holds.pushImpl (hs : s.Holds xs) (b : UInt8) : (s.pushImpl b).Holds (xs ++ [b]) := by
  unfold Sha1.pushImpl
  split_ifs with hfull
  · have hblock : (s.block.set s.blockByteIndex b).length = 64 := by
      rw [List.length_set, s.length_block]
    have h := Absorbed.full hs hfull b
    rw [← processBlock_eq s.h _ hblock] at h
    exact h
  · have hlt := s.index_lt
    exact Absorbed.push hs (by omega) b

theorem pushImpl_bitCount (s : Sha1) (b : UInt8) : (s.pushImpl b).bitCount = s.bitCount := by
  unfold Sha1.pushImpl
  split_ifs
  · rfl
  · rfl

/-- A `sha1` that was fed with the bytes `xs`. -/
structure Fed (s : Sha1) (xs : Bytes) : Prop where
  holds : s.Holds xs
  bitCount : s.bitCount = sizeT (8 * xs.length)

theorem construct_fed (memory : Memory) : (construct memory).Fed [] :=
  ⟨absorbed_nil memory.length_block, rfl⟩

theorem Fed.push (hs : s.Fed xs) (b : UInt8) : (s.push b).Fed (xs ++ [b]) := by
  constructor
  · exact hs.holds.pushImpl b
  · change sizeT ((s.pushImpl b).bitCount + 8) = _
    rw [pushImpl_bitCount, hs.bitCount, List.length_append]
    simp only [sizeT, List.length_cons, List.length_nil]
    omega

theorem Fed.pushBuffer (hs : s.Fed xs) (bs : Bytes) : (s.pushBuffer bs).Fed (xs ++ bs) := by
  induction bs generalizing s xs with
  | nil =>
    rw [List.append_nil]
    exact hs
  | cons b bs ih =>
    have h := ih (hs.push b)
    rw [List.append_assoc] at h
    exact h

/-- However the bytes are handed over, it comes to the same. -/
theorem Fed.feeds (hs : s.Fed xs) (feeds : List Feed) :
    (feeds.foldl feed s).Fed (xs ++ message feeds) := by
  induction feeds generalizing s xs with
  | nil =>
    rw [message, List.flatMap_nil, List.append_nil]
    exact hs
  | cons f feeds ih =>
    have hf : (s.feed f).Fed (xs ++ f.bytes) := by
      cases f with
      | byte b => exact hs.push b
      | buffer bs => exact hs.pushBuffer bs
    have h := ih hf
    rw [List.append_assoc] at h
    rw [message, List.flatMap_cons]
    exact h

/-- The loop pushes `n` zeros, where the index after them is the first to end it. -/
theorem Holds.pushZeros (hs : s.Holds xs) (cond : Nat → Prop) [DecidablePred cond] (n : Nat)
    (hn : n < 65) (hpass : ∀ k < n, cond ((xs.length + k) % 64))
    (hend : ¬ cond ((xs.length + n) % 64)) :
    ∃ t, s.pushZeros cond = some t ∧ t.Holds (xs ++ List.replicate n 0) ∧
      t.bitCount = s.bitCount := by
  have hindex {t : Sha1} {k : Nat} (ht : t.Holds (xs ++ List.replicate k 0)) :
      t.blockByteIndex = (xs.length + k) % 64 := by
    have h := ht.index
    rw [List.length_append, List.length_replicate] at h
    exact h
  apply whileSome_done
    (fun (k : Nat) (t : Sha1) => t.Holds (xs ++ List.replicate k 0) ∧ t.bitCount = s.bitCount) n 0
    65 s
    (Nat.zero_le n)
  · intro k hk t ht
    refine ⟨?_, _, rfl, ?_, ?_⟩
    · rw [hindex ht.1]
      exact hpass k hk
    · rw [List.replicate_succ', ← List.append_assoc]
      exact ht.1.pushImpl 0
    · rw [pushImpl_bitCount]
      exact ht.2
  · intro t ht
    rw [hindex ht.1]
    exact hend
  · omega
  · rw [List.replicate_zero, List.append_nil]
    exact ⟨hs, rfl⟩

/-- The zeros go up to eight bytes before the end of a block. -/
theorem Holds.pushPadding (hs : s.Holds xs) :
    ∃ t, s.pushPadding = some t ∧
      t.Holds (xs ++ List.replicate ((120 - xs.length % 64) % 64) 0) ∧
      t.bitCount = s.bitCount := by
  have hindex : s.blockByteIndex = xs.length % 64 := hs.index
  unfold Sha1.pushPadding
  split_ifs with hlate
  · -- there is no room for the length in this block
    obtain ⟨t, ht, hholds, hcount⟩ := hs.pushZeros (fun i => i ≠ 0) (64 - xs.length % 64)
      (by omega) (by intro k hk; omega) (by omega)
    obtain ⟨u, hu, hholds', hcount'⟩ := hholds.pushZeros (fun i => i < 56) 56 (by decide)
      (by
        intro k hk
        rw [List.length_append, List.length_replicate]
        omega)
      (by
        rw [List.length_append, List.length_replicate]
        omega)
    have hsum : (120 - xs.length % 64) % 64 = 64 - xs.length % 64 + 56 := by omega
    refine ⟨u, ?_, ?_, hcount'.trans hcount⟩
    · rw [ht]
      exact hu
    · rw [hsum, List.replicate_add, ← List.append_assoc]
      exact hholds'
  · have hsum : (120 - xs.length % 64) % 64 = 56 - xs.length % 64 := by omega
    rw [hsum]
    exact hs.pushZeros (fun i => i < 56) _ (by omega) (by intro k hk; omega) (by omega)

theorem Holds.pushBytes (hs : s.Holds xs) (shifts : List Nat) (n : Nat) (hn : s.bitCount = n) :
    (shifts.foldl (fun (s : Sha1) shift => s.pushImpl (UInt8.ofNat ((s.bitCount >>> shift) &&& 0xff)))
      s).Holds (xs ++ shifts.map fun shift => UInt8.ofNat ((n >>> shift) &&& 0xff)) := by
  induction shifts generalizing s xs with
  | nil =>
    rw [List.map_nil, List.append_nil]
    exact hs
  | cons shift shifts ih =>
    have hnext := hs.pushImpl (UInt8.ofNat ((n >>> shift) &&& 0xff))
    have h := ih hnext ((pushImpl_bitCount s _).trans hn)
    rw [List.append_assoc] at h
    rw [List.foldl_cons, hn]
    exact h

theorem length_bytes (n : Nat) :
    ([56, 48, 40, 32, 24, 16, 8, 0].map fun shift => UInt8.ofNat ((sizeT n >>> shift) &&& 0xff)) =
      toBytes 8 n := by
  have hmask (x : Nat) : x &&& 0xff = x % 2^8 := and_mask x 8
  simp only [toBytes, numeral, List.map_cons, List.map_nil, hmask, Nat.shiftRight_eq_div_pow, sizeT,
    List.cons.injEq, and_true]
  refine ⟨?_, ?_, ?_, ?_, ?_, ?_, ?_, ?_⟩ <;> congr 1 <;> omega

theorem Fed.finish (hs : s.Fed xs) :
    ∃ t, (s.pushImpl 0x80).pushPadding = some t ∧ t.pushLength.Holds (pad xs) := by
  obtain ⟨t, ht, hholds, hcount⟩ := (hs.holds.pushImpl 0x80).pushPadding
  have hbits : t.bitCount = sizeT (8 * xs.length) := by
    rw [hcount, pushImpl_bitCount, hs.bitCount]
  have hzeros : (120 - (xs ++ [(0x80 : UInt8)]).length % 64) % 64 =
      (119 - xs.length % 64) % 64 := by
    rw [List.length_append]
    simp only [List.length_cons, List.length_nil]
    omega
  have hlength := hholds.pushBytes [56, 48, 40, 32, 24, 16, 8, 0] _ hbits
  rw [length_bytes, hzeros] at hlength
  exact ⟨t, ht, hlength⟩

end

/-- The bytes of a digest that are stored: the last one of each word, and zeros. -/
def stored (bs : Bytes) : Bytes := bs.mapIdx fun i b => if i % 4 = 3 then b else 0

theorem storeWord_eq (h : Word) : storeWord h = [0, 0, 0, UInt8.ofNat (h.toNat % 256)] := by
  have hcut (x m : Nat) (hm : m % 2^8 = 0) : UInt8.ofNat (x &&& m) = 0 := by
    apply UInt8.toNat_inj.mp
    rw [UInt8.toNat_ofNat', Nat.and_mod_two_pow, hm, Nat.and_zero]
    rfl
  have hlast : h.toNat &&& 0xff = h.toNat % 2^8 := and_mask h.toNat 8
  simp only [storeWord, List.map_cons, List.map_nil, BitVec.toNat_and, BitVec.ushiftRight_zero,
    BitVec.toNat_ofNat]
  rw [hcut _ _ (by decide), hcut _ _ (by decide), hcut _ _ (by decide)]
  simp [hlast]

theorem storeWord_stored (h : Words) :
    h.toList.flatMap storeWord = stored (h.toList.flatMap fun w => toBytes 4 w.toNat) := by
  simp [Words.toList, storeWord_eq, toBytes, numeral, stored]

theorem getDigest_stored (memory : Memory) (feeds : List Feed) :
    (feeds.foldl feed (construct memory)).getDigest = some (stored (digest (message feeds))) := by
  have hfed := (construct_fed memory).feeds feeds
  rw [List.nil_append] at hfed
  obtain ⟨t, ht, hholds⟩ := hfed.finish
  have hstate : t.pushLength.h = foldBlocks 64 compress initial (pad (message feeds)) :=
    hholds.state
  rw [getDigest, ht, digest, ← hstate, ← storeWord_stored]
  rfl

/-- `get_digest` gives the digest exactly if it has no other bytes than those that are stored. -/
theorem get_digest_iff (memory : Memory) (feeds : List Feed) :
    (feeds.foldl feed (construct memory)).getDigest = some (digest (message feeds)) ↔
      ∀ i < 20, i % 4 ≠ 3 → (digest (message feeds))[i]? = some 0 := by
  rw [getDigest_stored, Option.some.injEq]
  have hlen := digest_length (message feeds)
  generalize digest (message feeds) = bs at hlen
  have hget (i : Nat) (hi : i < bs.length) :
      (stored bs)[i]? = some (if i % 4 = 3 then bs[i] else 0) := by
    rw [stored, List.getElem?_mapIdx, List.getElem?_eq_getElem hi]
    rfl
  constructor
  · intro heq i hi hrest
    have h := hget i (by omega)
    rw [heq, if_neg hrest] at h
    exact h
  · intro hzero
    apply List.ext_getElem?
    intro i
    by_cases hi : i < 20
    · rw [hget i (by omega)]
      split_ifs with hlast
      · rw [List.getElem?_eq_getElem]
      · exact (hzero i hi hlast).symm
    · rw [List.getElem?_eq_none (by rw [stored, List.length_mapIdx]; omega),
        List.getElem?_eq_none (by omega)]

/-- The digest of no bytes is `da39a3ee5e6b4b0d3255bfef95601890afd80709`. -/
theorem digest_bytes_lost :
    (construct ⟨List.replicate 64 0, by decide⟩).getDigest ≠ some (digest []) := by
  decide +kernel

end Sha1

end Libnodecc.Util
