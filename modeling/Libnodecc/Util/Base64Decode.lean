import Libnodecc.Framework.Loop
import Libnodecc.Util.Base64

namespace Libnodecc.Util.Base64

open Buffer

/-- The initialisers of `decode_table`, which leave the upper half zero. -/
def decodeTable : List Nat :=
  [255, 255, 255, 255, 255, 255, 255, 255, 255, 255, 255, 255, 255, 255, 255, 255,
    255, 255, 255, 255, 255, 255, 255, 255, 255, 255, 255, 255, 255, 255, 255, 255,
    255, 255, 255, 255, 255, 255, 255, 255, 255, 255, 255, 62, 255, 62, 255, 63,
    52, 53, 54, 55, 56, 57, 58, 59, 60, 61, 255, 255, 255, 255, 255, 255,
    255, 0, 1, 2, 3, 4, 5, 6, 7, 8, 9, 10, 11, 12, 13, 14,
    15, 16, 17, 18, 19, 20, 21, 22, 23, 24, 25, 255, 255, 255, 255, 63,
    255, 26, 27, 28, 29, 30, 31, 32, 33, 34, 35, 36, 37, 38, 39, 40,
    41, 42, 43, 44, 45, 46, 47, 48, 49, 50, 51, 255, 255, 255, 255, 255] ++
  List.replicate 128 0

/-- The pointers `base` into the input and `out` into the result, and the shift register. -/
structure Decoder where
  base : Nat
  out : Nat
  r : Nat
  ri : Nat
  result : Bytes
  deriving DecidableEq

namespace Decoder

/-- The macro `shift6`. -/
def shift6 (d : Decoder) (n : Nat) : Decoder :=
  if n ≤ 0x3F then { d with r := (d.r <<< 6 ||| n) % 2^32, ri := (d.ri + 1) % 2^8 } else d

/-- Writes bytes to `out`, which have to be inside of the result. -/
def store (d : Decoder) (bytes : Bytes) : Option Decoder :=
  if d.out + bytes.length ≤ d.result.length then
    some { d with
      result := d.result.take d.out ++ bytes ++ d.result.drop (d.out + bytes.length) }
  else none

/-- The bytes that the cases of `switch (ri)` write. -/
def registerBytes (r ri : Nat) : Bytes :=
  match ri with
  | 2 => [UInt8.ofNat ((r &&& 0x00000ff0) >>> 4)]
  | 3 => [UInt8.ofNat ((r &&& 0x0003fc00) >>> 10), UInt8.ofNat ((r &&& 0x000003fc) >>> 2)]
  | 4 => [UInt8.ofNat ((r &&& 0x00ff0000) >>> 16), UInt8.ofNat ((r &&& 0x0000ff00) >>> 8),
      UInt8.ofNat ((r &&& 0x000000ff) >>> 0)]
  | _ => []

/-- The `switch` behind a group, which advances `out` and resets `ri`. -/
def flush (d : Decoder) : Option Decoder := do
  let d ← d.store (registerBytes d.r d.ri)
  pure (match d.ri with
    | 2 => { d with out := d.out + 1, ri := 1 }
    | 3 => { d with out := d.out + 2, ri := 1 }
    | 4 => { d with out := d.out + 3, ri := 0 }
    | _ => d)

end Decoder

section
variable (buffer : View)

/-- `decode_table[*ptr]`. -/
def decodeAt (ptr : Nat) : Option Nat := do
  let c ← buffer.byte ptr
  decodeTable[c]?

/-- The body of the loop over four characters. -/
def decode4 (s : Decoder) : Option Decoder := do
  let a ← decodeAt buffer s.base
  let b ← decodeAt buffer (s.base + 1)
  let c ← decodeAt buffer (s.base + 2)
  let d ← decodeAt buffer (s.base + 3)
  let s ← ((((s.shift6 a).shift6 b).shift6 c).shift6 d).flush
  pure { s with base := sizeT (s.base + 4) }

/-- The characters that are left; the `switch` behind them does not advance `out`. -/
def decodeTail (left : Nat) (s : Decoder) : Option Decoder := do
  let s ← (List.range left).foldlM (fun s i => do
    let n ← decodeAt buffer (s.base + i)
    pure (s.shift6 n)) s
  s.store (Decoder.registerBytes s.r s.ri)

/-- The passes over the input, which write to the memory of the result. A pass that does not fail
has read four bytes, so there are no more passes than bytes. -/
def decodeTo (result : Bytes) : Option Decoder := do
  let bufferEnd := sizeT (buffer.addr + buffer.size)
  let endAligned := subSizeT bufferEnd 3
  let s ← whileSome (fun s : Decoder => s.base < endAligned) (decode4 buffer) (buffer.size + 1)
    ⟨buffer.addr, 0, 0, 0, result⟩
  let left := subSizeT bufferEnd s.base % 2^8
  decodeTail buffer left s

end

/-- The passes, with the memory `ptr` points to up to the capacity as the result. -/
def decodeInto (malloc : Malloc) (buffer : View) (s : State) (ptr : Ptr) : Call State := do
  let capacity ← s.capacity 0
  let room ← defined (s.heap.read (some ptr) capacity)
  let d ← defined (decodeTo buffer room)
  let heap ← defined (s.heap.write ptr d.result)
  { s with heap := heap }.setSize malloc 0 d.out

/-- `base64::decode`. -/
def decode (malloc : Malloc) (buffer : View) : Call Bytes := do
  let s ← (State.init.push .null (some 0)).setSize malloc 0 (sizeT (buffer.size / 4 * 3))
  let result ← s.handle 0
  let s ← (match result.ref.data with
    | some ptr => decodeInto malloc buffer s ptr
    | none => pure s)
  let result ← s.handle 0
  defined (s.heap.read result.ref.data result.ref.size)

end Libnodecc.Util.Base64
