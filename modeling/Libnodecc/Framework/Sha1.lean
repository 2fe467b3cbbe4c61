import Libnodecc.Framework.Blocks
import Libnodecc.Framework.Numeral
import Mathlib.Data.BitVec

namespace Libnodecc.Sha1

abbrev Word := BitVec 32

/-- `ROTL`. -/
def rotl (n : Nat) (x : Word) : Word := (x <<< n) ||| (x >>> (32 - n))

def ch (x y z : Word) : Word := (x &&& y) ^^^ (~~~x &&& z)

def parity (x y z : Word) : Word := x ^^^ y ^^^ z

def maj (x y z : Word) : Word := (x &&& y) ^^^ (x &&& z) ^^^ (y &&& z)

/-- The logical function of round `t`. -/
def logical (t : Nat) : Word → Word → Word → Word :=
  if t < 20 then ch else if t < 40 then parity else if t < 60 then maj else parity

/-- The constant of round `t`. -/
def constant (t : Nat) : Word :=
  if t < 20 then 0x5a827999#32
  else if t < 40 then 0x6ed9eba1#32
  else if t < 60 then 0x8f1bbcdc#32
  else 0xca62c1d6#32

/-- The hash value, and the working variables. -/
@[ext]
structure Words where
  a : Word
  b : Word
  c : Word
  d : Word
  e : Word
  deriving DecidableEq

def initial : Words := ⟨0x67452301#32, 0xefcdab89#32, 0x98badcfe#32, 0x10325476#32, 0xc3d2e1f0#32⟩

def bigEndian (bs : List UInt8) : Nat := readDigits 256 0 (bs.map UInt8.toNat)

/-- A number as `k` big-endian bytes. -/
def toBytes (k n : Nat) : List UInt8 := (numeral 256 k n).map UInt8.ofNat

def blockWords (block : List UInt8) : List Word :=
  (List.range 16).map fun t => BitVec.ofNat 32 (bigEndian ((block.drop (4 * t)).take 4))

/-- The message schedule, up to `t` words behind those of the block. -/
def schedule (block : List UInt8) : Nat → List Word
  | 0 => blockWords block
  | t + 1 =>
    let w := schedule block t
    w ++ [rotl 1 (w.getD (t + 13) 0 ^^^ w.getD (t + 8) 0 ^^^ w.getD (t + 2) 0 ^^^ w.getD t 0)]

/-- Round `t`, with its word of the schedule. -/
def round (v : Words) (t : Nat) (w : Word) : Words :=
  ⟨rotl 5 v.a + logical t v.b v.c v.d + v.e + constant t + w, v.a, rotl 30 v.b, v.c, v.d⟩

def compress (h : Words) (block : List UInt8) : Words :=
  let w := schedule block 64
  let v := (List.range 80).foldl (fun v t => round v t (w.getD t 0)) h
  ⟨h.a + v.a, h.b + v.b, h.c + v.c, h.d + v.d, h.e + v.e⟩

/-- The message, a one bit, zero bits up to eight bytes before the end of a block, and the length
in bits. -/
def pad (message : List UInt8) : List UInt8 :=
  message ++ [0x80] ++ List.replicate ((119 - message.length % 64) % 64) 0 ++
    toBytes 8 (8 * message.length)

def Words.toList (h : Words) : List Word := [h.a, h.b, h.c, h.d, h.e]

def digest (message : List UInt8) : List UInt8 :=
  (foldBlocks 64 compress initial (pad message)).toList.flatMap fun w => toBytes 4 w.toNat

theorem schedule_length (block : List UInt8) (t : Nat) : (schedule block t).length = 16 + t := by
  induction t with
  | zero => simp [schedule, blockWords]
  | succ t ih =>
    rw [schedule, List.length_append, ih]
    rfl

theorem digest_length (message : List UInt8) : (digest message).length = 20 := by
  simp [digest, Words.toList, toBytes]

/-- The first example of the standard. -/
example : digest [0x61, 0x62, 0x63] =
    [0xa9, 0x99, 0x3e, 0x36, 0x47, 0x06, 0x81, 0x6a, 0xba, 0x3e, 0x25, 0x71, 0x78, 0x50, 0xc2, 0x6c,
      0x9c, 0xd0, 0xd8, 0x9d] := by
  decide +kernel

end Libnodecc.Sha1
