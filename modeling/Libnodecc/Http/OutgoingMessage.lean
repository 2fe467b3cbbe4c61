import Libnodecc.Buffer.AppendNumber
import Mathlib.Logic.Function.Basic

namespace Libnodecc.Http

open Util

/-- A `node::buffer` handed to a message; its size is a `size_t`. -/
structure Chunk (bits : Nat) where
  buf : Buf
  size_lt : buf.size < 2^bits

abbrev Headers := Bytes → Option Buf

/-- A message on a live socket; `handedOver` is what the socket was given. -/
structure OutgoingMessage where
  headers : Headers
  headersSent : Bool
  isChunked : Bool
  handedOver : Bytes

def noHeaders : Headers := fun _ => none

def crlf : Bytes := ascii "\r\n"

/-- The sum of the buffer sizes, unless it overflows a `size_t`. -/
def contentLength {bits : Nat} : List (Chunk bits) → Nat → Option Nat
  | [], n => some n
  | b :: bufs, n => if 2^bits - 1 - n < b.buf.size then none else contentLength bufs (n + b.buf.size)

/-- The headers and `_is_chunked` as `http_write` settles them while no headers are sent. -/
def chooseFraming (p : Platform) (headers : Headers) (bufs : List (Chunk p.bits)) (last : Bool) :
    Option (Headers × Bool) :=
  if (headers (ascii "content-length")).isSome then some (headers, false)
  else
    match headers (ascii "transfer-encoding") with
    | some value => some (headers, value == some (ascii "chunked"))
    | none =>
      let chunked := Function.update headers (ascii "transfer-encoding") (some (some (ascii "chunked")))
      match if last then contentLength bufs 0 else none with
      | some n =>
        (Buf.appendNumber p none n 10).map fun buf =>
          if buf.isSome then (Function.update headers (ascii "content-length") (some buf), false)
          else (chunked, true)
      | none => some (chunked, true)

/-- The loop of `http_write` in chunked mode, with `buf` as it stands before it: what ends up in
`compiledBufs`. -/
def chunkLoop (p : Platform) : Buf → Bool → List (Chunk p.bits) → Option Bytes
  | _, _, [] => some []
  | buf, first, b :: bufs =>
    let buf := if first then buf else buf.appendData crlf
    (buf.appendNumber p b.buf.size 16).bind fun buf =>
      (chunkLoop p none false bufs).map fun rest =>
        (buf.appendData crlf).bytes ++ b.buf.bytes ++ rest

/-- The last of `compiledBufs` in chunked mode. -/
def closing {bits : Nat} (bufs : List (Chunk bits)) (last : Bool) : Bytes :=
  if last then if 0 < bufs.length then ascii "\r\n0\r\n\r\n" else ascii "0\r\n\r\n" else crlf

def payload {bits : Nat} (bufs : List (Chunk bits)) : Bytes := bufs.flatMap fun b => b.buf.bytes

namespace OutgoingMessage

/-- `http_write`; `none` is a division by zero. The slots counted in `compiledBufcnt` lie in
memory next to the `bufcnt` buffers, so their number does not overflow. -/
def httpWrite (p : Platform) (compileHeaders : Headers → Bytes) (m : OutgoingMessage)
    (bufs : List (Chunk p.bits)) (last : Bool) : Option OutgoingMessage :=
  (if m.headersSent then some (m.headers, m.isChunked)
    else chooseFraming p m.headers bufs last).bind fun (headers, isChunked) =>
  let bufcnt := bufs.length
  let compiledBufcnt :=
    (if !m.headersSent && !isChunked then 1 else 0) +
      (if 0 < bufcnt then if isChunked then 2 * bufcnt + 1 else bufcnt else if last then 1 else 0)
  let writeEnd (m : OutgoingMessage) := { m with headersSent := m.headersSent && !last }
  let m' := { m with headers := headers, isChunked := isChunked }
  if compiledBufcnt = 0 then some (writeEnd m')
  else if compiledBufcnt = bufcnt then
    some (writeEnd { m' with handedOver := m.handedOver ++ payload bufs })
  else
    let buf : Buf := if m.headersSent then none else some (compileHeaders headers)
    let m' := if m.headersSent then m' else { m' with headers := noHeaders, headersSent := true }
    (if isChunked then (chunkLoop p buf true bufs).map (· ++ closing bufs last)
      else some (buf.bytes ++ payload bufs)).map fun compiledBufs =>
        writeEnd { m' with handedOver := m.handedOver ++ compiledBufs }

/-- `_write`. -/
def write (p : Platform) (compileHeaders : Headers → Bytes) (m : OutgoingMessage)
    (chunks : List (Chunk p.bits)) : Option OutgoingMessage :=
  m.httpWrite p compileHeaders chunks false

/-- `send_headers`. -/
def sendHeaders (p : Platform) (compileHeaders : Headers → Bytes) (m : OutgoingMessage) :
    Option OutgoingMessage :=
  m.write p compileHeaders []

/-- `_end`. -/
def endWith (p : Platform) (compileHeaders : Headers → Bytes) (m : OutgoingMessage)
    (chunks : List (Chunk p.bits)) : Option OutgoingMessage :=
  (m.httpWrite p compileHeaders chunks true).map fun m => { m with headers := noHeaders }

end OutgoingMessage

/-- What may be called before the final `end`. -/
inductive BodyCall (bits : Nat) where
  | sendHeaders
  | write (chunks : List (Chunk bits))

inductive OutgoingCall (bits : Nat) where
  | body (call : BodyCall bits)
  | endWith (chunks : List (Chunk bits))

section
variable {bits : Nat}

def BodyCall.chunks : BodyCall bits → List (Chunk bits)
  | sendHeaders => []
  | write chunks => chunks

namespace OutgoingCall

def chunks : OutgoingCall bits → List (Chunk bits)
  | body call => call.chunks
  | endWith chunks => chunks

def last : OutgoingCall bits → Bool
  | body _ => false
  | endWith _ => true

end OutgoingCall

/-- A message: calls, and the final `end`. -/
def message (calls : List (BodyCall bits)) (chunks : List (Chunk bits)) :
    List (OutgoingCall bits) :=
  calls.map .body ++ [.endWith chunks]

end

def OutgoingMessage.step (p : Platform) (compileHeaders : Headers → Bytes) (m : OutgoingMessage) :
    OutgoingCall p.bits → Option OutgoingMessage
  | .body .sendHeaders => m.sendHeaders p compileHeaders
  | .body (.write chunks) => m.write p compileHeaders chunks
  | .endWith chunks => m.endWith p compileHeaders chunks

section
variable (p : Platform) (compileHeaders : Headers → Bytes)

/-- The framing of a message is always found. -/
theorem chooseFraming_defined (headers : Headers) (bufs : List (Chunk p.bits)) (last : Bool) :
    ∃ framing, chooseFraming p headers bufs last = some framing := by
  unfold chooseFraming
  by_cases hcl : (headers (ascii "content-length")).isSome
  · exact ⟨_, if_pos hcl⟩
  · rw [if_neg hcl]
    cases headers (ascii "transfer-encoding") with
    | some value => exact ⟨_, rfl⟩
    | none =>
      generalize (if last then contentLength bufs 0 else none) = length
      cases length with
      | none => exact ⟨_, rfl⟩
      | some n =>
        obtain ⟨ds, hds⟩ := Buf.appendNumber_decimal p none n
        simp only [hds, Option.map_some]
        exact ⟨_, rfl⟩

theorem contentLength_eq {bits : Nat} (bufs : List (Chunk bits)) (n : Nat) (hn : n < 2^bits) :
    contentLength bufs n =
      if n + (bufs.map fun b => b.buf.size).sum < 2^bits then
        some (n + (bufs.map fun b => b.buf.size).sum)
      else none := by
  induction bufs generalizing n with
  | nil => simpa [contentLength] using hn
  | cons b bufs ih =>
    rw [contentLength, List.map_cons, List.sum_cons, ← Nat.add_assoc]
    by_cases hover : 2^bits - 1 - n < b.buf.size
    · have hlarge : ¬n + b.buf.size + (bufs.map fun b => b.buf.size).sum < 2^bits := by omega
      rw [if_pos hover, if_neg hlarge]
    · rw [if_neg hover]
      exact ih _ (by omega)

/-- Chunked mode, read off the headers and the buffers. -/
theorem chooseFraming_isChunked (headers headers' : Headers) (bufs : List (Chunk p.bits))
    (last isChunked : Bool) (h : chooseFraming p headers bufs last = some (headers', isChunked)) :
    isChunked = true ↔ headers (ascii "content-length") = none ∧
      match headers (ascii "transfer-encoding") with
      | some value => value = some (ascii "chunked")
      | none => last = true → 2^p.bits ≤ (bufs.map fun b => b.buf.size).sum := by
  unfold chooseFraming at h
  by_cases hcl : (headers (ascii "content-length")).isSome
  · rw [if_pos hcl] at h
    cases h
    obtain ⟨value, hvalue⟩ := Option.isSome_iff_exists.mp hcl
    simp [hvalue]
  · rw [if_neg hcl] at h
    have hcl : headers (ascii "content-length") = none := by simpa using hcl
    rw [hcl, and_iff_right rfl]
    cases hte : headers (ascii "transfer-encoding") with
    | some value =>
      rw [hte] at h
      cases h
      exact beq_iff_eq
    | none =>
      rw [hte] at h
      cases last with
      | false =>
        cases h
        simp
      | true =>
        simp only [if_true, contentLength_eq bufs 0 (Nat.pow_pos (by decide)), Nat.zero_add] at h
        simp only [forall_const]
        by_cases hsum : (bufs.map fun b => b.buf.size).sum < 2^p.bits
        · obtain ⟨ds, hds⟩ := Buf.appendNumber_decimal p none (bufs.map fun b => b.buf.size).sum
          simp only [if_pos hsum, hds, Option.map_some, Option.isSome_some, if_true] at h
          cases h
          simpa using hsum
        · simp only [if_neg hsum] at h
          cases h
          exact iff_of_true rfl (by omega)

/-- Once chunked, a message whose headers are still unsent stays chunked. -/
theorem chooseFraming_chunked (headers headers' : Headers) (bufs : List (Chunk p.bits))
    (last : Bool)
    (h : chooseFraming p headers bufs last = some (headers', true)) (bufs' : List (Chunk p.bits))
    (last' : Bool) : chooseFraming p headers' bufs' last' = some (headers', true) := by
  unfold chooseFraming at h
  by_cases hcl : (headers (ascii "content-length")).isSome
  · rw [if_pos hcl] at h
    cases h
  · rw [if_neg hcl] at h
    have hfix (hs : Headers) (h1 : (hs (ascii "content-length")).isSome = false)
        (h2 : hs (ascii "transfer-encoding") = some (some (ascii "chunked"))) :
        chooseFraming p hs bufs' last' = some (hs, true) := by
      simp [chooseFraming, h1, h2]
    have hcl : (headers (ascii "content-length")).isSome = false := by simpa using hcl
    have hne : ascii "content-length" ≠ ascii "transfer-encoding" := by decide
    have hfresh : chooseFraming p
        (Function.update headers (ascii "transfer-encoding") (some (some (ascii "chunked")))) bufs'
        last' = some (Function.update headers (ascii "transfer-encoding")
          (some (some (ascii "chunked"))), true) := by
      apply hfix
      · rw [Function.update_of_ne hne]
        exact hcl
      · rw [Function.update_self]
    cases hte : headers (ascii "transfer-encoding") with
    | some value =>
      rw [hte] at h
      simp only [Option.some.injEq, Prod.mk.injEq, beq_iff_eq] at h
      obtain ⟨rfl, rfl⟩ := h
      exact hfix headers hcl hte
    | none =>
      rw [hte] at h
      generalize (if last then contentLength bufs 0 else none) = length at h
      cases length with
      | some n =>
        obtain ⟨ds, hds⟩ := Buf.appendNumber_decimal p none n
        simp [hds] at h
      | none =>
        cases h
        exact hfresh

/-- The size line of a chunk. -/
def sizeLine {bits : Nat} (b : Chunk bits) : Bytes :=
  (if b.buf.size = 0 then [] else (Buf.hexDigits b.buf.size).map Buf.digitChar) ++ crlf

/-- Chunks behind another one in the same call. -/
def laterChunks {bits : Nat} (bufs : List (Chunk bits)) : Bytes :=
  bufs.flatMap fun b => crlf ++ sizeLine b ++ b.buf.bytes

def Chunk.Filled {bits : Nat} (b : Chunk bits) : Prop := b.buf.size ≠ 0

instance {bits : Nat} (b : Chunk bits) : Decidable b.Filled := by
  unfold Chunk.Filled
  infer_instance

theorem crlf_ne : crlf ≠ [] := by decide

theorem appendNumber_size (buf : Buf) (b : Chunk p.bits) :
    (buf.appendNumber p b.buf.size 16).map (fun buf => (buf.appendData crlf).bytes) =
      if b.Filled ∨ buf = none then some (buf.bytes ++ sizeLine b) else none := by
  by_cases hz : b.buf.size = 0
  · rw [hz, Buf.appendNumber_zero_hex]
    cases buf with
    | none => simp [sizeLine, hz, Buf.appendData, crlf_ne]
    | some bs => simp [Chunk.Filled, hz]
  · rw [Buf.appendNumber_hex p buf _ (Nat.pos_iff_ne_zero.mpr hz) b.size_lt]
    simp [sizeLine, hz, Chunk.Filled, Buf.appendData, crlf_ne]

theorem chunkLoop_cons (buf : Buf) (first : Bool) (b : Chunk p.bits) (bufs : List (Chunk p.bits)) :
    chunkLoop p buf first (b :: bufs) =
      if b.Filled ∨ first = true ∧ buf = none then
        (chunkLoop p none false bufs).map fun rest =>
          (if first then buf.bytes else buf.bytes ++ crlf) ++ sizeLine b ++ b.buf.bytes ++ rest
      else none := by
  -- what the length is appended to
  obtain ⟨start, hstart⟩ : ∃ start, start = if first then buf else buf.appendData crlf := ⟨_, rfl⟩
  have hbytes : start.bytes = if first then buf.bytes else buf.bytes ++ crlf := by
    rw [hstart]
    cases first with
    | false => simp [Buf.appendData, crlf_ne]
    | true => rfl
  have hnone : start = none ↔ first = true ∧ buf = none := by
    rw [hstart]
    cases first with
    | false => simp [Buf.appendData, crlf_ne]
    | true => simp
  have hloop : chunkLoop p buf first (b :: bufs) =
      ((start.appendNumber p b.buf.size 16).map fun buf => (buf.appendData crlf).bytes).bind
        fun line => (chunkLoop p none false bufs).map fun rest => line ++ b.buf.bytes ++ rest := by
    rw [chunkLoop, ← hstart, Option.bind_map]
    rfl
  rw [hloop, appendNumber_size, hbytes]
  simp only [hnone]
  split_ifs with hb
  · rfl
  · rfl
  · rfl

theorem chunkLoop_later (bufs : List (Chunk p.bits)) : chunkLoop p none false bufs =
    if ∀ b ∈ bufs, b.Filled then some (laterChunks bufs) else none := by
  induction bufs with
  | nil => simp [chunkLoop, laterChunks]
  | cons b bufs ih =>
    rw [chunkLoop_cons, ih]
    by_cases hb : b.Filled <;> by_cases hr : ∀ b ∈ bufs, b.Filled <;>
      simp [hb, hr, laterChunks]

/-- A call with at least one buffer: the first may be empty only where `buf` is null. -/
theorem chunkLoop_call (buf : Buf) (b : Chunk p.bits) (bufs : List (Chunk p.bits)) :
    chunkLoop p buf true (b :: bufs) =
      if (b.Filled ∨ buf = none) ∧ ∀ b ∈ bufs, b.Filled then
        some (buf.bytes ++ (sizeLine b ++ b.buf.bytes ++ laterChunks bufs))
      else none := by
  rw [chunkLoop_cons, chunkLoop_later]
  by_cases hb : b.Filled ∨ buf = none <;> by_cases hr : ∀ b ∈ bufs, b.Filled <;>
    simp [hb, hr]

/-- What a call hands over behind the header block. -/
def framed {bits : Nat} (isChunked : Bool) (bufs : List (Chunk bits)) (last : Bool) : Bytes :=
  if isChunked then
    match bufs with
    | [] => if last then closing bufs true else []
    | b :: rest => sizeLine b ++ b.buf.bytes ++ laterChunks rest ++ closing bufs last
  else payload bufs

/-- With the headers sent, only an empty buffer behind another one is fatal. -/
theorem httpWrite_sent (m : OutgoingMessage) (bufs : List (Chunk p.bits)) (last : Bool)
    (h : m.headersSent = true) :
    m.httpWrite p compileHeaders bufs last =
      if m.isChunked = true → ∀ b ∈ bufs.tail, b.Filled then
        some { m with
          headersSent := !last, handedOver := m.handedOver ++ framed m.isChunked bufs last }
      else none := by
  cases hc : m.isChunked with
  | false =>
    cases bufs with
    | nil => cases last <;> simp [OutgoingMessage.httpWrite, h, hc, framed, payload]
    | cons b bufs => simp [OutgoingMessage.httpWrite, h, hc, framed]
  | true =>
    cases bufs with
    | nil => cases last <;> simp [OutgoingMessage.httpWrite, h, hc, framed, chunkLoop]
    | cons b bufs =>
      have hne : ¬2 * (bufs.length + 1) = bufs.length := by omega
      by_cases hf : ∀ b ∈ bufs, b.Filled
      · simp [OutgoingMessage.httpWrite, h, hc, framed, chunkLoop_call, hne]
      · simp [OutgoingMessage.httpWrite, h, hc, chunkLoop_call, hne, hf]

theorem httpWrite_empty (m : OutgoingMessage) (last : Bool) (headers : Headers)
    (h : m.headersSent = false)
    (hf : chooseFraming p m.headers [] last = some (headers, true)) :
    m.httpWrite p compileHeaders [] last = some { m with
      headers := if last then noHeaders else headers
      isChunked := true,
      handedOver := m.handedOver ++ framed true ([] : List (Chunk p.bits)) last } := by
  cases last <;> simp [OutgoingMessage.httpWrite, h, hf, framed, chunkLoop]

/-- In all other cases the call hands it over first. -/
theorem httpWrite_unsent (m : OutgoingMessage) (bufs : List (Chunk p.bits)) (last isChunked : Bool)
    (headers : Headers) (h : m.headersSent = false)
    (hf : chooseFraming p m.headers bufs last = some (headers, isChunked))
    (hb : isChunked = true → bufs ≠ []) :
    m.httpWrite p compileHeaders bufs last =
      if isChunked = true → ∀ b ∈ bufs, b.Filled then
        some ⟨noHeaders, !last, isChunked,
          m.handedOver ++ compileHeaders headers ++ framed isChunked bufs last⟩
      else none := by
  cases isChunked with
  | false =>
    cases bufs with
    | nil => cases last <;> simp [OutgoingMessage.httpWrite, h, hf, framed, payload]
    | cons b bufs => simp [OutgoingMessage.httpWrite, h, hf, framed]
  | true =>
    cases bufs with
    | nil => exact absurd rfl (hb rfl)
    | cons b bufs =>
      have hne : ¬2 * (bufs.length + 1) = bufs.length := by omega
      by_cases h1 : b.Filled <;> by_cases h2 : ∀ b ∈ bufs, b.Filled <;>
        simp [OutgoingMessage.httpWrite, h, hf, framed, chunkLoop_call, hne, h1, h2]

end

end Libnodecc.Http
