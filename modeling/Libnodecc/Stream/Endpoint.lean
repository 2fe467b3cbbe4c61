import Libnodecc.Buffer.Bystanders
import Libnodecc.Stream.HalfClose
import Libnodecc.Stream.TryWrite

namespace Libnodecc.Stream

open Buffer Util

/-- A `packed_req` that libuv holds: what was passed to `uv_write`, how many bytes of it have been
sent since, and the handles of its `ref_list`. -/
structure PackedReq where
  uvBufs : List UvBuf
  taken : Nat
  refList : List Nat

/-- A callback of libuv whose listeners run: the read callback with a chunk, at the end and after an
error, and the write callback with the `packed_req` it deletes. -/
inductive StreamCallback where
  | data (chunk : Nat)
  | ended
  | failed
  | wrote (refList : List Nat) (failed : Bool)

/-- A `uv::stream` and the memory of its program. `broken` tells that the connection is lost, `fin`
that the writing side was shut down. `written` is what was passed to the stream, `sent` what has
been sent of it, `arrived` what libuv has read, and `chunks` what the `data_event`s showed. -/
structure Endpoint where
  memory : State
  flags : HalfClose
  allocBuffer : Nat
  callback : Option StreamCallback
  inFlight : List PackedReq
  broken : Bool
  fin : Bool
  written : Bytes
  sent : Bytes
  arrived : Bytes
  chunks : List Bytes

/-- What the program calls, in a listener or outside, and what libuv does. -/
inductive EndpointLabel where
  | memory (op : Op)
  | write (chunks : List Nat) (wi ret : Int)
  | endStream (chunks : List Nat) (wi ret : Int)
  | resume (accepted : Bool)
  | pause
  | destroy
  | flush (n : Nat)
  | lose
  | shutDown
  | writeDone (k : Nat) (status : Int)
  | shutdownDone (status : Int)
  | read (bytes : Bytes)
  | eof
  | readFails
  | callbackReturns

def PackedReq.rest (heap : Heap UInt8) (r : PackedReq) : Bytes :=
  (r.uvBufs.flatMap (UvBuf.shown heap)).drop r.taken

/-- The requests behind the next `n` bytes, and these bytes; libuv sends one request after the
other. -/
def flushNext (heap : Heap UInt8) (n : Nat) : List PackedReq → Bytes × List PackedReq
  | [] => ([], [])
  | r :: rs =>
    if r.rest heap = [] then
      let (bytes, rs) := flushNext heap n rs
      (bytes, r :: rs)
    else ((r.rest heap).take n, { r with taken := r.taken + n } :: rs)

def StreamCallback.handles : StreamCallback → List Nat
  | data chunk => [chunk]
  | wrote refList _ => refList
  | _ => []

namespace Endpoint

def init : Endpoint := ⟨⟨[], [⟨.null, none⟩]⟩, .init, 0, none, [], false, false, [], [], [], []⟩

/-- What has been written but not sent, as the memory has it now. -/
def pending (e : Endpoint) : Bytes := e.inFlight.flatMap (PackedReq.rest e.memory.heap)

/-- The handles of the stream: the program cannot change them. -/
def owned (e : Endpoint) : List Nat :=
  e.allocBuffer :: (e.callback.elim [] StreamCallback.handles ++ e.inFlight.flatMap PackedReq.refList)

def Flows (e : Endpoint) : Prop := e.broken = false ∧ e.flags.destroyed = false ∧ e.fin = false

instance (e : Endpoint) : Decidable e.Flows := inferInstanceAs (Decidable (_ ∧ _))

section
variable (build : Build) (malloc : Malloc)

/-- `uv::stream::_write`, with what `uv_try_write` and `uv_write` answer. The flag tells whether it
returned. -/
def writeBufs (e : Endpoint) (js : List Nat) (wi ret : Int) : Call (Endpoint × Bool) := do
  if ∃ j ∈ js, e.memory.handles.length ≤ j then throw .undefined
  let bufs := js.map e.memory.refOf
  let result ← defined (streamWrite bufs wi)
  let bytes := accepted e.memory.heap bufs wi
  let all := (uvBufs bufs).flatMap (UvBuf.shown e.memory.heap)
  let e := { e with sent := e.sent ++ bytes }
  match result with
  | none => pure ({ e with written := e.written ++ all }, true)
  | some queued =>
    let refList := List.range' e.memory.handles.length queued.refList.length
    let memory ← copies build malloc e.memory (js.drop (js.length - queued.refList.length))
    if ret < 0 then
      let memory ← destroyAll build malloc memory refList
      pure ({ e with memory := memory, written := e.written ++ bytes }, false)
    else
      let req : PackedReq := ⟨queued.uvBufs, 0, refList⟩
      pure ({ e with
        memory := memory
        written := e.written ++ all
        inFlight := e.inFlight ++ [req] }, true)

/-- `writable::write`; on a stream that has ended it throws. -/
def write (e : Endpoint) (js : List Nat) (wi ret : Int) : Call Endpoint :=
  if !e.flags.isWritable then pure e
  else do
    let (e, _) ← e.writeBufs build malloc js wi ret
    pure e

/-- `writable::end` and `uv::stream::_end`. -/
def endStream (e : Endpoint) (js : List Nat) (wi ret : Int) : Call Endpoint :=
  if !e.flags.isWritable then pure e
  else do
    let (e, returned) ← (if e.flags.destroyed ∨ js = [] then pure (e, true)
      else e.writeBufs build malloc js wi ret)
    pure { e with flags := e.flags.endStream returned }

/-- The write callback, up to the listeners of `drain_event`. -/
def writeDone (e : Endpoint) (k : Nat) (status : Int) : Endpoint :=
  match e.inFlight[k]? with
  | none => e
  | some r => { e with
      inFlight := e.inFlight.eraseIdx k
      callback := some (.wrote r.refList (status ≠ 0)) }

/-- The allocation callback: none if there is no memory. -/
def alloc (e : Endpoint) : Call (Option Endpoint) :=
  match call build malloc e.memory (.constructSize .buffer 4000) with
  | .error .badAlloc => pure none
  | .error .undefined => throw .undefined
  | .ok memory => do
    let temporary := e.memory.handles.length
    let memory ← call build malloc memory (.moveAssign e.allocBuffer .buffer temporary)
    pure (some { e with memory := memory })

/-- libuv puts what it read into the buffer, and the read callback makes a chunk of it. -/
def fill (e : Endpoint) (bytes : Bytes) : Call Endpoint := do
  let buf ← e.memory.handle e.allocBuffer
  let ptr ← defined buf.ref.data
  let heap ← defined (e.memory.heap.write ptr bytes)
  let filled : State := { e.memory with heap := heap }
  if bytes = [] then
    let memory ← call build malloc filled (.reset e.allocBuffer)
    pure { e with memory := memory }
  else
    let chunk := filled.handles.length
    let memory ← call build malloc filled (.slice .buffer e.allocBuffer 0 bytes.length)
    let shown ← defined (memory.shown chunk)
    pure { e with
      memory := memory
      callback := some (.data chunk)
      arrived := e.arrived ++ bytes
      chunks := e.chunks ++ [shown] }

/-- libuv reads with the buffer of the allocation callback; without one it fails. -/
def readWith (e : Endpoint) (then' : Endpoint → Call Endpoint) : Call Endpoint := do
  match ← e.alloc build malloc with
  | none => pure { e with callback := some .failed }
  | some e => then' e

/-- The read callback with `UV_EOF`, up to the listeners of `end_event`. -/
def readEnds (e : Endpoint) : Endpoint :=
  { e with flags := e.flags.setReadingEnded [], callback := some .ended }

/-- A callback of libuv behind its listeners. -/
def callbackReturns (e : Endpoint) : Call Endpoint :=
  let resets (ks : List Nat) (flags : HalfClose) : Call Endpoint := do
    let memory ← destroyAll build malloc e.memory ks
    pure { e with memory := memory, flags := flags, callback := none }
  match e.callback with
  | none => pure e
  | some (.data chunk) => resets [chunk, e.allocBuffer] e.flags
  | some .ended =>
    resets [e.allocBuffer] (if e.flags.writeHasEnded then e.flags.hangUp else e.flags.endStream true)
  | some .failed => resets [e.allocBuffer] e.flags.destroy
  | some (.wrote refList failed) => resets refList (if failed then e.flags.destroy else e.flags)

/-- libuv calls back outside of other callbacks, and reads while the stream is consuming. It takes
bytes while the connection sends and nothing waits before them, shuts down when everything has been
sent, and fails a request only after the connection was lost or the handle closed. What `peer` sent
arrives in order; the end is read when `peer` was shut down or closed, behind all that it sent. -/
def Occurs (e peer : Endpoint) : EndpointLabel → Prop
  | .write js wi _ | .endStream js wi _ =>
    0 < wi → e.Flows ∧ e.pending = [] ∧ wi ≤ ((js.map e.memory.refOf).map Ref.size).sum
  | .flush _ => e.Flows
  | .shutDown => e.Flows ∧ 0 < e.flags.inFlight ∧ e.pending = []
  | .writeDone k status => e.callback.isNone = true ∧
    (status = 0 → ∀ r ∈ e.inFlight[k]?, r.rest e.memory.heap = []) ∧
      (status ≠ 0 → e.broken = true ∨ e.flags.destroyed = true)
  | .shutdownDone status => e.callback.isNone = true ∧ 0 < e.flags.inFlight ∧
    (status = 0 → e.fin = true)
  | .read bytes => e.callback.isNone = true ∧ e.flags.isConsuming = true ∧
    e.flags.destroyed = false ∧ bytes.length ≤ 4000 ∧ e.arrived ++ bytes <+: peer.sent
  | .eof => e.callback.isNone = true ∧ e.flags.isConsuming = true ∧
    e.flags.destroyed = false ∧ (peer.fin = true ∨ peer.flags.destroyed = true) ∧
      e.arrived = peer.sent
  | .readFails =>
    e.callback.isNone = true ∧ e.flags.isConsuming = true ∧ e.flags.destroyed = false
  | .memory _ | .resume _ | .pause | .destroy | .lose | .callbackReturns => True

instance (e peer : Endpoint) (l : EndpointLabel) : Decidable (e.Occurs peer l) := by
  cases l <;> unfold Occurs <;> infer_instance

def perform (e : Endpoint) : EndpointLabel → Call Endpoint
  | .memory op => do
    let memory ← defined (step build malloc e.memory op)
    pure { e with memory := memory }
  | .write js wi ret => e.write build malloc js wi ret
  | .endStream js wi ret => e.endStream build malloc js wi ret
  | .resume accepted => pure { e with flags := e.flags.resume accepted }
  | .pause => pure { e with flags := e.flags.pause }
  | .destroy => pure { e with flags := e.flags.destroy }
  | .flush n =>
    let (bytes, reqs) := flushNext e.memory.heap n e.inFlight
    pure { e with sent := e.sent ++ bytes, inFlight := reqs }
  | .lose => pure { e with broken := true }
  | .shutDown => pure { e with fin := true }
  | .writeDone k status => pure (e.writeDone k status)
  | .shutdownDone status => pure { e with flags := e.flags.onShutdown status }
  | .read bytes => e.readWith build malloc fun e => e.fill build malloc bytes
  | .eof => e.readWith build malloc fun e => pure e.readEnds
  | .readFails => e.readWith build malloc fun e => pure { e with callback := some .failed }
  | .callbackReturns => e.callbackReturns build malloc

/-- A label that cannot occur changes nothing. `none` is undefined behaviour. -/
def step (e peer : Endpoint) (l : EndpointLabel) : Option Endpoint :=
  if e.Occurs peer l then (e.perform build malloc l).toOption else some e

end

/-- What the program may call: operations on its own handles that keep out of each other's way, and
writes of buffers that can be counted. -/
def Admits (build : Build) (e : Endpoint) : EndpointLabel → Prop
  | .memory op => op.Separate build e.memory ∧ ∀ k ∈ op.operands, k ∉ e.owned
  | .write js _ _ | .endStream js _ _ => (∀ j ∈ js, j < e.memory.handles.length) ∧
    js.length < 2^32 ∧ ((js.map e.memory.refOf).map Ref.size).sum < 2^64
  | _ => True

instance (build : Build) (e : Endpoint) (l : EndpointLabel) : Decidable (e.Admits build l) := by
  cases l <;> unfold Admits <;> infer_instance

end Endpoint

section
variable {s t : State} {touched ks : List Nat} {u : UvBuf}

/-- A range that libuv was given lies in what one of the handles `ks` shows. -/
def Anchored (s : State) (ks : List Nat) (u : UvBuf) : Prop :=
  ∃ k ∈ ks, ∃ x, s.handles[k]? = some x ∧
    ∃ off, u.base = advance x.ref.data off ∧ off + u.len ≤ x.ref.size

theorem cellsAt_part {β : Type} (heap : Heap β) (data : Option Ptr) {size off len : Nat}
    (h : off + len ≤ size) :
    heap.cellsAt (advance data off) len = ((heap.cellsAt data size).drop off).take len := by
  cases data with
  | none => simp [advance, Heap.cellsAt]
  | some ptr =>
    simp only [advance, Option.map_some, Heap.cellsAt, List.drop_take, List.drop_drop,
      List.take_take]
    rw [Nat.min_eq_left (by omega)]

namespace Anchored

theorem mono {ks' : List Nat} (ha : Anchored s ks u) (hks : ∀ k ∈ ks, k ∈ ks') :
    Anchored s ks' u := by
  obtain ⟨k, hk, rest⟩ := ha
  exact ⟨k, hks k hk, rest⟩

theorem room (ha : Anchored s ks u) (hw : s.Wf []) : s.heap.Room u.base u.len := by
  obtain ⟨k, -, x, hx, off, hbase, hle⟩ := ha
  have hroom := hw.room hx
  rw [hbase]
  cases hdata : x.ref.data with
  | none =>
    rw [hdata] at hroom
    have hsize : x.ref.size = 0 := hroom
    change u.len = 0
    omega
  | some ptr =>
    rw [hdata] at hroom
    exact hroom.advance hle

theorem leaves (ha : Anchored s ks u) (hw : s.Wf []) (hl : Leaves touched s t)
    (hks : ∀ k ∈ ks, k ∉ touched) : Anchored t ks u ∧ u.shown t.heap = u.shown s.heap := by
  obtain ⟨k, hk, x, hx, off, hbase, hle⟩ := ha
  have hlt := (List.getElem?_eq_some_iff.mp hx).1
  have htx := hl.get (hks k hk) hx
  have hshown := hl.shown k hlt (hks k hk)
  rw [shown_of_get hw hx, shown_of_get hl.wf htx] at hshown
  refine ⟨⟨k, hk, x, htx, off, hbase, hle⟩, ?_⟩
  rw [UvBuf.shown, UvBuf.shown, hbase, cellsAt_part _ _ hle, cellsAt_part _ _ hle,
    Option.some.inj hshown]

end Anchored

theorem rest_leaves {r : PackedReq} (hr : ∀ u ∈ r.uvBufs, Anchored s r.refList u) (hw : s.Wf [])
    (hl : Leaves touched s t) (hks : ∀ k ∈ r.refList, k ∉ touched) :
    r.rest t.heap = r.rest s.heap := by
  rw [PackedReq.rest, PackedReq.rest]
  congr 1
  apply List.flatMap_congr
  intro u hu
  exact ((hr u hu).leaves hw hl hks).2

end

/-- The bytes that are sent come off the front, and the requests keep their handles. -/
theorem flushNext_spec (heap : Heap UInt8) (n : Nat) (rs : List PackedReq) :
    (flushNext heap n rs).1 ++ (flushNext heap n rs).2.flatMap (PackedReq.rest heap) =
        rs.flatMap (PackedReq.rest heap) ∧
      (flushNext heap n rs).2.map (fun r => (r.uvBufs, r.refList)) =
        rs.map fun r => (r.uvBufs, r.refList) := by
  induction rs with
  | nil => exact ⟨rfl, rfl⟩
  | cons r rs ih =>
    obtain ⟨hbytes, hsame⟩ := ih
    by_cases hr : r.rest heap = []
    · have hnext : flushNext heap n (r :: rs) =
          ((flushNext heap n rs).1, r :: (flushNext heap n rs).2) := by
        rw [flushNext, if_pos hr]
      rw [hnext]
      refine ⟨?_, by rw [List.map_cons, List.map_cons, hsame]⟩
      rw [List.flatMap_cons, List.flatMap_cons, hr, List.nil_append, List.nil_append]
      exact hbytes
    · have hnext : flushNext heap n (r :: rs) =
          ((r.rest heap).take n, { r with taken := r.taken + n } :: rs) := by
        rw [flushNext, if_neg hr]
      have hrest : PackedReq.rest heap { r with taken := r.taken + n } = (r.rest heap).drop n := by
        rw [PackedReq.rest, PackedReq.rest, List.drop_drop]
      rw [hnext]
      refine ⟨?_, rfl⟩
      rw [List.flatMap_cons, List.flatMap_cons, hrest, ← List.append_assoc, List.take_append_drop]

/-- What is queued holds on to the buffers from some index on. -/
theorem tryThenQueue_refList {bufs : List Ref} {wi : Int} {queued : Queued}
    (h : tryThenQueue bufs wi = some (some queued)) :
    queued.refList = bufs.drop (bufs.length - queued.refList.length) := by
  obtain ⟨i, hi⟩ : ∃ i, queued.refList = bufs.drop i := by
    unfold tryThenQueue at h
    split_ifs at h with hnow hpos
    · cases h
    · cases hdrop : (uvBufs bufs).drop (Gather.split (bufs.map Ref.size) wi.toNat).1 with
      | nil =>
        simp only [hdrop] at h
        cases h
      | cons first rest =>
        simp only [hdrop] at h
        cases h
        exact ⟨_, rfl⟩
    · cases h
      exact ⟨0, rfl⟩
  rw [hi, List.length_drop]
  by_cases hle : i ≤ bufs.length
  · rw [Nat.sub_sub_self hle]
  · rw [List.drop_eq_nil_of_le (by omega), List.drop_eq_nil_of_le (by omega)]

end Libnodecc.Stream
