import Libnodecc.Http.MessageTransfer

namespace Libnodecc.Http

open Util Wire

/-- `_socket` of a message: its `write` works, or it throws since the socket has ended, or the
pointer is null. -/
inductive SocketState where
  | writable | ended | null
  deriving DecidableEq

namespace OutgoingMessage

/-- `http_write` with a socket whose `write` may throw; `true` if it did. -/
def httpWriteTo (build : Build) (compileHeaders : Headers → Bytes) (throws : Bool)
    (m : OutgoingMessage) (bufs : List (Chunk 64)) (last : Bool) : Option (OutgoingMessage × Bool) :=
  (if m.headersSent then some (m.headers, m.isChunked)
    else chooseFraming build m.headers bufs last).bind fun (headers, isChunked) =>
  let bufcnt := bufs.length
  let compiledBufcnt :=
    (if !m.headersSent && !isChunked then 1 else 0) +
      (if 0 < bufcnt then if isChunked then 2 * bufcnt + 1 else bufcnt else if last then 1 else 0)
  let writeEnd (m : OutgoingMessage) := ({ m with headersSent := m.headersSent && !last }, false)
  let m' := { m with headers := headers, isChunked := isChunked }
  if compiledBufcnt = 0 then some (writeEnd m')
  else if compiledBufcnt = bufcnt then
    some (if throws then (m', true)
      else writeEnd { m' with handedOver := m.handedOver ++ payload bufs })
  else
    let buf : Buf := if m.headersSent then none else some (compileHeaders headers)
    let m' := if m.headersSent then m' else { m' with headers := noHeaders, headersSent := true }
    (if isChunked then (chunkLoop build buf true bufs).map (· ++ closing bufs last)
      else some (buf.bytes ++ payload bufs)).map fun compiledBufs =>
        if throws then (m', true)
        else writeEnd { m' with handedOver := m.handedOver ++ compiledBufs }

end OutgoingMessage

/-- An `outgoing_message`, with what it inherits from `stream::writable`. -/
structure OutgoingStream where
  message : OutgoingMessage
  isWritable : Bool
  socket : SocketState

namespace OutgoingStream

/-- The constructor; `_is_chunked` is not initialised. -/
def init (isChunked : Bool) : OutgoingStream := ⟨.init noHeaders isChunked, true, .writable⟩

def setHeader (s : OutgoingStream) (key : Bytes) (value : Buf) : OutgoingStream :=
  { s with message := { s.message with headers := emplace s.message.headers key value } }

/-- `http_write`. -/
def httpWrite (build : Build) (compileHeaders : Headers → Bytes) (s : OutgoingStream)
    (bufs : List (Chunk 64)) (last : Bool) : Option (OutgoingStream × Bool) :=
  match s.socket with
  | .null => some (s, false)
  | socket =>
    (s.message.httpWriteTo build compileHeaders (socket == .ended) bufs last).map
      fun (m, threw) => ({ s with message := m }, threw)

/-- `_write` and `_end` of `outgoing_message`. -/
def transfer (build : Build) (compileHeaders : Headers → Bytes) (s : OutgoingStream)
    (c : OutgoingCall 64) : Option (OutgoingStream × Bool) :=
  (s.httpWrite build compileHeaders c.chunks c.last).map fun (s, threw) =>
    if c.last && !threw then ({ s with message := { s.message with headers := noHeaders } }, threw)
    else (s, threw)

/-- `write` and `end` of `stream::writable`; a `write` after the end throws. -/
def call (build : Build) (compileHeaders : Headers → Bytes) (s : OutgoingStream)
    (c : OutgoingCall 64) : Option (OutgoingStream × Bool) :=
  if s.isWritable then
    (s.transfer build compileHeaders c).map fun (s, threw) =>
      ({ s with isWritable := threw || !c.last }, threw)
  else some (s, !c.last)

/-- `end` of the socket. -/
def endSocket (s : OutgoingStream) : OutgoingStream :=
  { s with socket := if s.socket = .writable then .ended else s.socket }

/-- `_destroy`. -/
def destroy (s : OutgoingStream) : OutgoingStream := { s with socket := .null }

end OutgoingStream

section
variable (build : Build) (compileHeaders : Headers → Bytes)

theorem httpWriteTo_works (m : OutgoingMessage) (bufs : List (Chunk 64)) (last : Bool) :
    m.httpWriteTo build compileHeaders false bufs last =
      (m.httpWrite build compileHeaders bufs last).map fun m => (m, false) := by
  unfold OutgoingMessage.httpWriteTo OutgoingMessage.httpWrite
  rw [Option.map_bind]
  refine congrArg _ (funext fun framing => ?_)
  obtain ⟨headers, isChunked⟩ := framing
  simp only [Function.comp_apply, Bool.false_eq_true, if_false]
  split_ifs <;> simp [Option.map_map, Function.comp_def]

theorem transfer_works (s : OutgoingStream) (c : OutgoingCall 64) (h : s.socket = .writable) :
    s.transfer build compileHeaders c =
      (s.message.step build compileHeaders c).map fun m => ({ s with message := m }, false) := by
  have hwrite : s.httpWrite build compileHeaders c.chunks c.last =
      (s.message.httpWrite build compileHeaders c.chunks c.last).map fun m =>
        ({ s with message := m }, false) := by
    have hthrows : (SocketState.writable == SocketState.ended) = false := by decide
    simp only [OutgoingStream.httpWrite, h, hthrows, httpWriteTo_works, Option.map_map]
    rfl
  rw [OutgoingStream.transfer, hwrite, Option.map_map]
  cases c with
  | body call =>
    rw [step_body]
    rfl
  | endWith chunks =>
    rw [step_endWith, Option.map_map]
    rfl

/-- Filled buffers are compiled whether or not the socket takes them; one that does not gets
none. -/
theorem httpWriteTo_throws (m : OutgoingMessage) (bufs : List (Chunk 64)) (last : Bool)
    (h : ∀ b ∈ bufs, b.Filled) : ∃ m' threw,
      m.httpWriteTo build compileHeaders true bufs last = some (m', threw) ∧
        m'.handedOver = m.handedOver := by
  obtain ⟨framing, hframing⟩ : ∃ framing, (if m.headersSent then some (m.headers, m.isChunked)
      else chooseFraming build m.headers bufs last) = some framing := by
    by_cases hsent : m.headersSent
    · rw [if_pos hsent]
      exact ⟨_, rfl⟩
    · rw [if_neg hsent]
      exact chooseFraming_defined build m.headers bufs last
  obtain ⟨headers, isChunked⟩ := framing
  have hloop (buf : Buf) : ∃ compiled, chunkLoop build buf true bufs = some compiled := by
    cases bufs with
    | nil => exact ⟨_, rfl⟩
    | cons b bufs =>
      have hb := h b List.mem_cons_self
      rw [chunkLoop_call, if_pos ⟨.inl hb, fun c hc => h c (List.mem_cons_of_mem b hc)⟩]
      exact ⟨_, rfl⟩
  unfold OutgoingMessage.httpWriteTo
  rw [hframing, Option.bind_some]
  simp only [if_true]
  obtain ⟨compiled, hcompiled⟩ :=
    hloop (if m.headersSent then none else some (compileHeaders headers))
  simp only [hcompiled, Option.map_some]
  split_ifs <;> exact ⟨_, _, rfl, rfl⟩

theorem transfer_stopped (s : OutgoingStream) (c : OutgoingCall 64) (h : s.socket ≠ .writable)
    (hfilled : ∀ b ∈ c.chunks, b.Filled) :
    ∃ s' threw, s.transfer build compileHeaders c = some (s', threw) ∧ s'.socket = s.socket ∧
      s'.message.handedOver = s.message.handedOver := by
  have hwrite : ∃ s' threw, s.httpWrite build compileHeaders c.chunks c.last = some (s', threw) ∧
      s'.socket = s.socket ∧ s'.message.handedOver = s.message.handedOver := by
    unfold OutgoingStream.httpWrite
    rcases hsocket : s.socket with _ | _ | _
    · exact absurd hsocket h
    · obtain ⟨m', threw, hm, hsame⟩ :=
        httpWriteTo_throws build compileHeaders s.message c.chunks c.last hfilled
      have hthrows : (SocketState.ended == SocketState.ended) = true := by decide
      simp only [hthrows, hm, Option.map_some]
      exact ⟨_, _, rfl, rfl, hsame⟩
    · exact ⟨_, _, rfl, hsocket, rfl⟩
  obtain ⟨s', threw, hs, hsocket, hsame⟩ := hwrite
  rw [OutgoingStream.transfer, hs, Option.map_some]
  by_cases hend : (c.last && !threw) = true
  · exact ⟨_, _, congrArg some (if_pos hend), hsocket, hsame⟩
  · exact ⟨_, _, congrArg some (if_neg hend), hsocket, hsame⟩

end

/-- A message, and whether its connection still takes what is written. -/
structure Sending where
  transfer : Transfer
  live : Bool

namespace Sending

def init : Sending := ⟨.unsent [], true⟩

def setHeader (p : Sending) (key : Bytes) (value : Buf) : Option Sending :=
  match p.live, p.transfer with
  | true, .unsent set =>
    if Settable set key value then some { p with transfer := .unsent (set ++ [(key, value)]) } else none
  | _, _ => some p

def call (build : Build) (o : Opening) (p : Sending) (c : OutgoingCall 64) : Option Sending :=
  match p.live, p.transfer with
  | _, .sent _ _ => some p
  | true, t => (t.call build o c).map fun t => { p with transfer := t }
  | false, _ => if ∀ b ∈ c.chunks, b.Filled then some p else none

def lose (p : Sending) : Sending := { p with live := false }

/-- A header is set while the head is not announced; later it is ignored. -/
theorem setHeader_cases (p p' : Sending) (key : Bytes) (value : Buf)
    (h : p.setHeader key value = some p') :
    (p' = p ∧ (p.live = false ∨ ∀ set, p.transfer ≠ .unsent set)) ∨
      p.live = true ∧ ∃ set, p.transfer = .unsent set ∧ Settable set key value ∧
        p' = { p with transfer := .unsent (set ++ [(key, value)]) } := by
  unfold setHeader at h
  cases hlive : p.live with
  | false =>
    simp only [hlive] at h
    exact .inl ⟨(Option.some.inj h).symm, .inl rfl⟩
  | true =>
    cases ht : p.transfer with
    | unsent set =>
      simp only [hlive, ht] at h
      split_ifs at h with hok
      exact .inr ⟨rfl, set, rfl, hok, (Option.some.inj h).symm⟩
    | sending a body =>
      simp only [hlive, ht] at h
      exact .inl ⟨(Option.some.inj h).symm, .inr (by simp)⟩
    | sent a body =>
      simp only [hlive, ht] at h
      exact .inl ⟨(Option.some.inj h).symm, .inr (by simp)⟩

/-- A call counts on a live connection, before the end of the message. -/
theorem call_cases (build : Build) (o : Opening) (p p' : Sending) (c : OutgoingCall 64)
    (h : p.call build o c = some p') :
    (p' = p ∧ (p.transfer.IsSent ∨ p.live = false ∧ ∀ b ∈ c.chunks, b.Filled)) ∨
      p.live = true ∧ ¬p.transfer.IsSent ∧
        ∃ t, p.transfer.call build o c = some t ∧ p' = { p with transfer := t } := by
  unfold call at h
  cases ht : p.transfer with
  | sent a body =>
    left
    refine ⟨?_, .inl ⟨a, body, rfl⟩⟩
    cases hlive : p.live with
    | false =>
      simp only [hlive, ht] at h
      exact (Option.some.inj h).symm
    | true =>
      simp only [hlive, ht] at h
      exact (Option.some.inj h).symm
  | unsent set =>
    cases hlive : p.live with
    | false =>
      simp only [hlive, ht] at h
      split_ifs at h with hfilled
      exact .inl ⟨(Option.some.inj h).symm, .inr ⟨rfl, hfilled⟩⟩
    | true =>
      simp only [hlive, ht] at h
      obtain ⟨t, hcall, rfl⟩ := Option.map_eq_some_iff.mp h
      refine .inr ⟨rfl, ?_, t, hcall, rfl⟩
      rintro ⟨a, body, heq⟩
      cases heq
  | sending a body =>
    cases hlive : p.live with
    | false =>
      simp only [hlive, ht] at h
      split_ifs at h with hfilled
      exact .inl ⟨(Option.some.inj h).symm, .inr ⟨rfl, hfilled⟩⟩
    | true =>
      simp only [hlive, ht] at h
      obtain ⟨t, hcall, rfl⟩ := Option.map_eq_some_iff.mp h
      refine .inr ⟨rfl, ?_, t, hcall, rfl⟩
      rintro ⟨b, rest, heq⟩
      cases heq

end Sending

structure UnderWay (format : Format) (s : OutgoingStream) (p : Sending) : Prop where
  live : p.live = true
  unsent : ¬p.transfer.IsSent
  socket : s.socket = .writable
  writable : s.isWritable = true
  carries : Carries format s.message p.transfer

/-- A message that was ended, or whose connection is gone: what was read of it stays. -/
structure Over (format : Format) (s : OutgoingStream) (p : Sending) : Prop where
  stopped : p.live = false → s.socket ≠ .writable
  done : p.live = false ∨ p.transfer.IsSent
  ended : p.transfer.IsSent → s.isWritable = false
  read : ∃ reader, run (Reader.step format) (.start []) s.message.handedOver = some reader ∧
    p.transfer.ReadAs reader

def Serves (format : Format) (s : OutgoingStream) (p : Sending) : Prop :=
  UnderWay format s p ∨ Over format s p

theorem endSocket_socket (s : OutgoingStream) : s.endSocket.socket ≠ .writable := by
  unfold OutgoingStream.endSocket
  by_cases h : s.socket = .writable
  · simp [h]
  · rw [if_neg h]
    exact h

section
variable {build : Build} {format : Format} {o : Opening} {order : Headers → List Bytes}
  {s : OutgoingStream} {p p' : Sending}

theorem serves_init (format : Format) (isChunked : Bool) :
    Serves format (.init isChunked) .init := by
  refine .inl ⟨rfl, ?_, rfl, rfl, .unsent [] rfl rfl rfl setsOk_nil⟩
  rintro ⟨a, body, heq⟩
  cases heq

theorem Serves.read (h : Serves format s p) : ∃ reader,
    run (Reader.step format) (.start []) s.message.handedOver = some reader ∧
      p.transfer.ReadAs reader := by
  rcases h with h | h
  · exact h.carries.read
  · exact h.read

theorem Over.socket (h : Over format s p) (socket : SocketState) (hs : socket ≠ .writable) :
    Over format { s with socket := socket } p :=
  ⟨fun _ => hs, h.done, h.ended, h.read⟩

theorem Serves.lose (h : Serves format s p) (socket : SocketState) (hs : socket ≠ .writable) :
    Over format { s with socket := socket } p.lose := by
  rcases h with h | h
  · exact ⟨fun _ => hs, .inl rfl, fun hsent => absurd hsent h.unsent, h.carries.read⟩
  · exact ⟨fun _ => hs, .inl rfl, h.ended, h.read⟩

/-- Setting a header; it is without effect once the head is sent. -/
theorem UnderWay.setHeader (h : UnderWay format s p) (key : Bytes) (value : Buf)
    (hp : p.setHeader key value = some p') : UnderWay format (s.setHeader key value) p' := by
  have hcarries := h.carries
  rcases p.setHeader_cases p' key value hp with ⟨rfl, hlate⟩ | ⟨hlive, set, ht, hok, rfl⟩
  · refine ⟨h.live, h.unsent, h.socket, h.writable, ?_⟩
    cases ht : p'.transfer with
    | unsent set =>
      rcases hlate with hlive | hset
      · rw [h.live] at hlive
        cases hlive
      · exact absurd ht (hset set)
    | sending a body =>
      rw [ht] at hcarries
      cases hcarries with
      | sending a body head hsent hmode hbody hhead hread =>
        exact .sending a body head hsent hmode hbody hhead hread
    | sent a body => exact absurd ⟨a, body, ht⟩ h.unsent
  · rw [ht] at hcarries
    cases hcarries with
    | unsent set hsent hnothing hset hsets =>
      refine ⟨hlive, ?_, h.socket, h.writable, .unsent _ hsent hnothing ?_ (hsets.snoc hok)⟩
      · rintro ⟨a, body, heq⟩
        cases heq
      · rw [setHeaders_snoc, ← hset]
        rfl

theorem Over.setHeader (h : Over format s p) (key : Bytes) (value : Buf)
    (hp : p.setHeader key value = some p') :
    p' = p ∧ Over format (s.setHeader key value) p := by
  refine ⟨?_, h.stopped, h.done, h.ended, h.read⟩
  rcases p.setHeader_cases p' key value hp with ⟨hsame, -⟩ | ⟨hlive, set, ht, -⟩
  · exact hsame
  · rcases h.done with hdead | ⟨a, body, hsent⟩
    · rw [hdead] at hlive
      cases hlive
    · rw [hsent] at ht
      cases ht

/-- A call on a live connection; the message is over exactly with its end. -/
theorem UnderWay.call (h : UnderWay format s p) (ho : o.ReadBy format)
    (horder : ∀ set, Traverses (order (setHeaders set)) (setHeaders set)) (c : OutgoingCall 64)
    (hp : p.call build o c = some p') : ∃ m,
      s.transfer build (o.block order) c = some ({ s with message := m }, false) ∧
      (c.last = false → UnderWay format { s with message := m } p') ∧
      (c.last = true → Over format { s with message := m, isWritable := false } p') := by
  rcases p.call_cases build o p' c hp with ⟨-, hsent | ⟨hdead, -⟩⟩ | ⟨hlive, -, t, ht, rfl⟩
  · exact absurd hsent h.unsent
  · rw [h.live] at hdead
    cases hdead
  · obtain ⟨m, hm, hcarries⟩ := transfer_step build ho horder s.message c p.transfer t h.carries
      h.unsent ht
    have hsent := call_isSent build o p.transfer t c h.unsent ht
    refine ⟨m, ?_, ?_, ?_⟩
    · rw [transfer_works build _ s c h.socket, hm]
      rfl
    · intro hlast
      rw [hlast] at hsent
      exact ⟨hlive, fun hs => Bool.false_ne_true (hsent.mp hs), h.socket, h.writable, hcarries⟩
    · intro hlast
      refine ⟨?_, .inr (hsent.mpr hlast), fun _ => rfl, hcarries.read⟩
      intro hdead
      rw [hlive] at hdead
      cases hdead

/-- A call on a message that is over: what it takes of it, it does not hand over. -/
theorem Over.call (h : Over format s p) (build : Build) (compileHeaders : Headers → Bytes)
    (c : OutgoingCall 64) (hp : p.call build o c = some p') : p' = p ∧ (s.isWritable = true →
      ∃ s' threw, s.transfer build compileHeaders c = some (s', threw) ∧ Over format s' p ∧
        Over format { s' with isWritable := false } p) := by
  rcases p.call_cases build o p' c hp with ⟨rfl, hsent | ⟨hlive, hfilled⟩⟩ | ⟨hlive, hunsent, -⟩
  · refine ⟨rfl, ?_⟩
    intro hw
    rw [h.ended hsent] at hw
    cases hw
  · refine ⟨rfl, ?_⟩
    intro hw
    have hunsent (hsent : p'.transfer.IsSent) (s' : OutgoingStream) : s'.isWritable = false := by
      rw [h.ended hsent] at hw
      cases hw
    obtain ⟨s', threw, hs, hsocket, hsame⟩ :=
      transfer_stopped build compileHeaders s c (h.stopped hlive) hfilled
    have hstopped : s'.socket ≠ .writable := by
      rw [hsocket]
      exact h.stopped hlive
    have hread := h.read
    rw [← hsame] at hread
    exact ⟨s', threw, hs, ⟨fun _ => hstopped, h.done, fun hsent => hunsent hsent s', hread⟩,
      fun _ => hstopped, h.done, fun _ => rfl, hread⟩
  · rcases h.done with hdead | hsent
    · rw [hdead] at hlive
      cases hlive
    · exact absurd hsent hunsent

end

end Libnodecc.Http
