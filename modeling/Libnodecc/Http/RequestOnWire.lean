import Libnodecc.Http.OutgoingStream
import Libnodecc.Http.RequestTarget

namespace Libnodecc.Http

open Util Wire

/-- `client::detail::request` with its socket. -/
structure ClientRequest where
  request : Request
  stream : OutgoingStream

inductive RequestEvent where
  | setHeader (key : Bytes) (value : Buf)
  | call (c : OutgoingCall 64)
  | endSocket
  | destroy

namespace ClientRequest

def compileHeaders (r : ClientRequest) (order : Headers → List Bytes) (headers : Headers) : Bytes :=
  (r.request.compileHeaders order headers none).bytes

def step (build : Build) (order : Headers → List Bytes) (r : ClientRequest) :
    RequestEvent → Option ClientRequest
  | .setHeader key value => some { r with stream := r.stream.setHeader key value }
  | .call c => (r.stream.call build (r.compileHeaders order) c).map fun (s, _) => { r with stream := s }
  | .endSocket => some { r with stream := r.stream.endSocket }
  | .destroy => some { r with stream := r.stream.destroy }

end ClientRequest

def requestOpening (r : Request) : Opening where
  start := r.method.bytes ++ ascii " " ++ r.path.bytes ++ ascii " HTTP/1.1"
  before := [⟨hostLine r.host, false⟩]
  after := []
  bodiless := false

/-- A user that sets sendable headers, keeps to the length it announced and writes no empty buffer
in chunked mode, on a connection that may go away at any time. -/
def Sending.requestStep (build : Build) (o : Opening) (p : Sending) : RequestEvent → Option Sending
  | .setHeader key value => p.setHeader key value
  | .call c => p.call build o c
  | .endSocket => some p.lose
  | .destroy => some p.lose

structure Request.Sendable (r : Request) : Prop where
  method : Unbroken r.method.bytes
  path : Unbroken r.path.bytes
  host : Unbroken r.host.bytes ∧ trim r.host.bytes = r.host.bytes

theorem requestOpening_readBy (r : Request) (h : r.Sendable) :
    (requestOpening r).ReadBy requestFormat where
  start := by
    have hblank : Unbroken (ascii " ") := by decide +kernel
    have hversion : Unbroken (ascii " HTTP/1.1") := by decide +kernel
    exact ((h.method.append hblank).append h.path).append hversion
  own := by
    intro l hl
    obtain rfl : l = ⟨hostLine r.host, false⟩ := by simpa [requestOpening] using hl
    have hname : ascii "host" ≠ [] ∧ (∀ ch ∈ ascii "host", isToken ch = true) ∧
        ¬Spells (ascii "host") (ascii "transfer-encoding") ∧
        ¬Spells (ascii "host") (ascii "content-length") := by decide +kernel
    obtain ⟨hne, htoken, hcoding, hlength⟩ := hname
    exact ⟨⟨hne, htoken, h.host.1, h.host.2⟩, hcoding, hlength⟩
  distinct := List.nodup_singleton _
  field := rfl
  bodyEnd := by
    intro fields e he
    have hframed : ¬(fieldCodings fields = [] ∧ fieldLengths fields = []) := by
      rintro ⟨hcodings, hlengths⟩
      rw [delimited, if_neg (by simpa using hcodings), hlengths] at he
      cases he
    change (if fieldCodings fields = [] ∧ fieldLengths fields = [] then some (BodyEnd.length 0)
      else delimited fields) = some e
    rw [if_neg hframed, he]

theorem requestHeaders_block (r : ClientRequest) (order : Headers → List Bytes) :
    r.compileHeaders order = (requestOpening r.request).block order := by
  funext headers
  have hline : ascii " HTTP/1.1\r\n" = ascii " HTTP/1.1" ++ crlf := by decide
  have hhost : ownLines [⟨hostLine r.request.host, false⟩] headers = [hostLine r.request.host] := by
    simp [ownLines]
  have hnone : ownLines [] headers = [] := rfl
  rw [ClientRequest.compileHeaders, compileHeaders_bytes, requestHeaders_text, hline]
  simp only [Opening.block, Opening.lines, requestOpening, hhost, hnone, requestLines,
    Buf.bytes_none, List.nil_append, List.append_assoc]

section
variable {build : Build} {order : Headers → List Bytes} {r : ClientRequest} {p p' : Sending}

/-- One event of a request. -/
theorem request_step (hr : r.request.Sendable)
    (horder : ∀ set, Traverses (order (setHeaders set)) (setHeaders set))
    (h : Serves requestFormat r.stream p) (e : RequestEvent)
    (hp : p.requestStep build (requestOpening r.request) e = some p') :
    ∃ r', r.step build order e = some r' ∧ r'.request = r.request ∧
      Serves requestFormat r'.stream p' := by
  cases e with
  | setHeader key value =>
    refine ⟨_, rfl, rfl, ?_⟩
    rcases h with h | h
    · exact .inl (h.setHeader key value hp)
    · obtain ⟨rfl, hover⟩ := h.setHeader key value hp
      exact .inr hover
  | call c =>
    rcases h with h | h
    · obtain ⟨m, hm, hmore, hlast⟩ := h.call (requestOpening_readBy r.request hr) horder c hp
      rw [← requestHeaders_block] at hm
      have hcall : r.step build order (.call c) =
          some ⟨r.request, { r.stream with message := m, isWritable := !c.last }⟩ := by
        simp [ClientRequest.step, OutgoingStream.call, h.writable, hm]
      refine ⟨_, hcall, rfl, ?_⟩
      cases hc : c.last with
      | false =>
        have hunder := hmore hc
        exact .inl ⟨hunder.live, hunder.unsent, hunder.socket, rfl, hunder.carries⟩
      | true => exact .inr (hlast hc)
    · obtain ⟨rfl, hover⟩ := h.call build (r.compileHeaders order) c hp
      by_cases hw : r.stream.isWritable = true
      · obtain ⟨s, threw, hs, hopen, hclosed⟩ := hover hw
        have hcall : r.step build order (.call c) =
            some ⟨r.request, { s with isWritable := threw || !c.last }⟩ := by
          simp [ClientRequest.step, OutgoingStream.call, hw, hs]
        refine ⟨_, hcall, rfl, .inr ?_⟩
        cases threw || !c.last with
        | false => exact hclosed
        | true =>
          refine ⟨hopen.stopped, hopen.done, ?_, hopen.read⟩
          intro hsent
          have hno := h.ended hsent
          rw [hno] at hw
          cases hw
      · have hcall : r.step build order (.call c) = some r := by
          simp [ClientRequest.step, OutgoingStream.call, hw]
        exact ⟨r, hcall, rfl, .inr h⟩
  | endSocket =>
    obtain rfl := Option.some.inj hp
    exact ⟨_, rfl, rfl, .inr (h.lose _ (endSocket_socket r.stream))⟩
  | destroy =>
    obtain rfl := Option.some.inj hp
    exact ⟨_, rfl, rfl, .inr (h.lose .null (by decide))⟩

end

/-- Whatever its user does, and whatever happens to its connection, the bytes of a request are read
as far as it is: nothing, its head with the body so far, or its whole message. -/
theorem request_is_read (build : Build) (order : Headers → List Bytes)
    (horder : ∀ set, Traverses (order (setHeaders set)) (setHeaders set)) (isChunked : Bool)
    (request : Request) (hr : request.Sendable) (es : List RequestEvent) (p : Sending)
    (h : run (Sending.requestStep build (requestOpening request)) .init es = some p) :
    ∃ r reader, run (ClientRequest.step build order) ⟨request, .init isChunked⟩ es = some r ∧
      run (Reader.step requestFormat) (.start []) r.stream.message.handedOver = some reader ∧
      p.transfer.ReadAs reader := by
  obtain ⟨r, hrun, -, hserves⟩ := run_simulates
    (fun (r : ClientRequest) p => r.request = request ∧ Serves requestFormat r.stream p)
    (by
      rintro r p e p' ⟨rfl, hserves⟩ hp
      obtain ⟨r', hr', hsame, hserves'⟩ := request_step hr horder hserves e hp
      exact ⟨r', hr', hsame, hserves'⟩)
    es ⟨request, .init isChunked⟩ .init p ⟨rfl, serves_init requestFormat isChunked⟩ h
  obtain ⟨reader, hread, has⟩ := hserves.read
  exact ⟨r, reader, hrun, hread, has⟩

end Libnodecc.Http
