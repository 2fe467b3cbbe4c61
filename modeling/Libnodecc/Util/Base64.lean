import Libnodecc.Buffer.Handles

namespace Libnodecc.Util.Base64

open Buffer

/-- A `buffer_view`: bytes, and the address of the first one. -/
structure View extends Region where
  addr : Nat
  fits : addr + bytes.length < 2^64

def View.size (v : View) : Nat := v.bytes.length

/-- The `n` bytes a pointer points to, where they are all inside of the view. -/
def View.load (v : View) (ptr n : Nat) : Option Bytes :=
  if v.addr ≤ sizeT ptr ∧ sizeT ptr + n ≤ v.addr + v.size then
    some ((v.bytes.drop (sizeT ptr - v.addr)).take n)
  else none

def View.byte (v : View) (ptr : Nat) : Option Nat :=
  (v.load ptr 1).map fun bs => readDigits 256 0 (bs.map UInt8.toNat)

/-- A little-endian `uint32_t`. -/
def View.word (v : View) (ptr : Nat) : Option Nat :=
  (v.load ptr 4).map fun bs => readDigits 256 0 (bs.reverse.map UInt8.toNat)

/-- `htonl` on a little-endian machine. -/
def htonl (x : Nat) : Nat :=
  x % 2^8 * 2^24 + x / 2^8 % 2^8 * 2^16 + x / 2^16 % 2^8 * 2^8 + x / 2^24 % 2^8

def encodeTableDef : Bytes :=
  ['A', 'B', 'C', 'D', 'E', 'F', 'G', 'H', 'I', 'J', 'K', 'L', 'M', 'N', 'O', 'P', 'Q', 'R', 'S',
    'T', 'U', 'V', 'W', 'X', 'Y', 'Z', 'a', 'b', 'c', 'd', 'e', 'f', 'g', 'h', 'i', 'j', 'k', 'l',
    'm', 'n', 'o', 'p', 'q', 'r', 's', 't', 'u', 'v', 'w', 'x', 'y', 'z', '0', '1', '2', '3', '4',
    '5', '6', '7', '8', '9', '+', '/'].map fun c => UInt8.ofNat c.toNat

def encodeTableUrl : Bytes :=
  ['A', 'B', 'C', 'D', 'E', 'F', 'G', 'H', 'I', 'J', 'K', 'L', 'M', 'N', 'O', 'P', 'Q', 'R', 'S',
    'T', 'U', 'V', 'W', 'X', 'Y', 'Z', 'a', 'b', 'c', 'd', 'e', 'f', 'g', 'h', 'i', 'j', 'k', 'l',
    'm', 'n', 'o', 'p', 'q', 'r', 's', 't', 'u', 'v', 'w', 'x', 'y', 'z', '0', '1', '2', '3', '4',
    '5', '6', '7', '8', '9', '-', '_'].map fun c => UInt8.ofNat c.toNat

def encodeTable (base64url : Bool) : Bytes := if base64url then encodeTableUrl else encodeTableDef

def equalsSign : UInt8 := UInt8.ofNat '='.toNat

/-- The four indices into the table for three bytes. -/
def sextets (in0 in1 in2 : Nat) : List Nat :=
  [in0 >>> 2,
    (in0 &&& 0x03) <<< 4 ||| in1 >>> 4,
    (in1 &&& 0x0f) <<< 2 ||| in2 >>> 6,
    in2 &&& 0x3f]

/-- The sixteen indices for three words in big endian. -/
def wordSextets (in1 in2 in3 : Nat) : List Nat :=
  [in1 >>> 26,
    (in1 &&& 0x3F00000) >>> 20,
    (in1 &&& 0xFC000) >>> 14,
    (in1 &&& 0x3F00) >>> 8,
    (in1 &&& 0xFC) >>> 2,
    (in1 &&& 0x3) <<< 4 ||| in2 >>> 28,
    (in2 &&& 0xFC00000) >>> 22,
    (in2 &&& 0x3F0000) >>> 16,
    (in2 &&& 0xFC00) >>> 10,
    (in2 &&& 0x3F0) >>> 4,
    (in2 &&& 0xF) <<< 2 ||| in3 >>> 30,
    (in3 &&& 0x3F000000) >>> 24,
    (in3 &&& 0xFC0000) >>> 18,
    (in3 &&& 0x3F000) >>> 12,
    (in3 &&& 0xFC0) >>> 6,
    in3 &&& 0x3F]

def lookup (table : Bytes) (is : List Nat) : Option Bytes := is.mapM fun i => table[i]?

/-- The pointers `base` into the input and `out` into the result. -/
structure Cursor where
  base : Nat
  out : Nat
  result : Bytes
  deriving DecidableEq

/-- Writes `enc` to `out`, which has to be inside of the result, and advances both pointers. -/
def Cursor.emit (c : Cursor) (n : Nat) (enc : Bytes) : Option Cursor :=
  if c.out + enc.length ≤ c.result.length then
    some ⟨sizeT (c.base + n), c.out + enc.length,
      c.result.take c.out ++ enc ++ c.result.drop (c.out + enc.length)⟩
  else none

section
variable (table : Bytes) (buffer : View)

/-- The body of the loops over three bytes. -/
def encode3 (c : Cursor) : Option Cursor := do
  let in0 ← buffer.byte c.base
  let in1 ← buffer.byte (c.base + 1)
  let in2 ← buffer.byte (c.base + 2)
  let enc ← lookup table (sextets in0 in1 in2)
  c.emit 3 enc

/-- The body of the loop over three words. -/
def encode12 (c : Cursor) : Option Cursor := do
  let in1 ← (buffer.word c.base).map htonl
  let in2 ← (buffer.word (c.base + 4)).map htonl
  let in3 ← (buffer.word (c.base + 8)).map htonl
  let enc ← lookup table (wordSextets in1 in2 in3)
  c.emit 12 enc

/-- The `switch` on the bytes that are left. -/
def encodeTail (left : Nat) (c : Cursor) : Option Cursor :=
  match left with
  | 3 => do
    let in2 ← buffer.byte (c.base + 2)
    let in1 ← buffer.byte (c.base + 1)
    let in0 ← buffer.byte c.base
    let enc ← lookup table (sextets in0 in1 in2)
    c.emit 0 enc
  | 2 => do
    let in1 ← buffer.byte (c.base + 1)
    let in0 ← buffer.byte c.base
    let enc ← lookup table ((sextets in0 in1 0).take 3)
    c.emit 0 (enc ++ [equalsSign])
  | 1 => do
    let in0 ← buffer.byte c.base
    let enc ← lookup table ((sextets in0 0 0).take 2)
    c.emit 0 (enc ++ [equalsSign, equalsSign])
  | _ => some c

end

/-- `while (base < stop)`. A pass that does not fail has read bytes no other pass reads, so a loop
makes no more passes than the input has bytes. -/
def loop (body : Cursor → Option Cursor) (stop : Nat) : Nat → Cursor → Option Cursor
  | 0, _ => none
  | fuel + 1, c => if c.base < stop then (body c).bind (loop body stop fuel) else some c

section
variable (table : Bytes) (buffer : View)

/-- Moves on to an aligned address, by a multiple of three bytes. -/
def encodePrefix (c : Cursor) : Option Cursor :=
  let offset := c.base &&& 3
  if offset ≠ 0 then
    loop (encode3 table buffer) (sizeT (c.base + 3 * offset)) (buffer.size + 1) c
  else some c

/-- The fast encode; `base` has already been advanced where `end_aligned` is computed from it. -/
def encodeWords (c : Cursor) : Option Cursor :=
  if 12 ≤ buffer.size then do
    let c ← encodePrefix table buffer c
    let endAligned := subSizeT (sizeT (c.base + buffer.size)) 11
    loop (encode12 table buffer) endAligned (buffer.size + 1) c
  else some c

/-- The passes over the input, which write to a result of the right size. -/
def encodeTo (result : Bytes) : Option Bytes := do
  let bufferEnd := sizeT (buffer.addr + buffer.size)
  let c ← encodeWords table buffer ⟨buffer.addr, 0, result⟩
  let endUnaligned := subSizeT bufferEnd 2
  let c ← loop (encode3 table buffer) endUnaligned (buffer.size + 1) c
  let left := subSizeT bufferEnd c.base % 2^8
  let c ← encodeTail table buffer left c
  pure c.result

end

/-- `base64::encode`. -/
def encode (malloc : Malloc) (buffer : View) (base64url : Bool) : Call Bytes := do
  let s ← (State.init.push .null (some 0)).setSize malloc 0 (sizeT (sizeT (buffer.size + 2) / 3 * 4))
  let result ← s.handle 0
  if result.ref.data.isSome then do
    let bs ← defined (s.heap.read result.ref.data result.ref.size)
    defined (encodeTo (encodeTable base64url) buffer bs)
  else pure []

end Libnodecc.Util.Base64
